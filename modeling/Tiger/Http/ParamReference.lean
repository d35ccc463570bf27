import Mathlib.Data.List.TakeWhile
import Tiger.Http.LazyParams
import Tiger.Http.UrlCodec

/-!
# HTTP - what the parameters of a request should be

`PARSE_PARAM` (`src/servers/http/http.cc`) looks for the next `=` and then for the separator
behind it, so that a segment without `=` becomes the front of the next name; and it escapes the
values once more where it should unescape them.

Main results:

- Theorem `parseParamLoop_eq`: the loop on positions ends on every string.
- Theorem `parseParam_eq`: the fields that it inserts, segment by segment.
- Theorem `parseParam_reference`: the strings for which these are the fields of the reference.
- Theorem `initParams_reference`: the same for the query, the form body and the cookies.
-/

namespace Tiger
namespace Http

/-! ## The loop on positions -/

/-- `str.find(c, pos)` -/
def findFrom (str : Text) (c : UInt8) (pos : Nat) : Option Nat :=
  let n := ((str.drop pos).takeWhile (· != c)).length
  if n < (str.drop pos).length then some (pos + n) else none

/-- `str.substr(pos, n)` -/
def substr (str : Text) (pos n : Nat) : Text := (str.drop pos).take n

/-- The loop of `PARSE_PARAM(str, m, flag, trim)` from position `pos` on. -/
def parseParamLoop (flag : UInt8) (trim : Text → Text) (str : Text) :
    Nat → Nat → FieldMap → Option FieldMap
  | 0, _, _ => none
  | fuel + 1, last, m =>
      match findFrom str 61 last with
      | none => some m
      | some key =>
          match findFrom str flag key with
          | none =>
              some (m.insert (trim (substr str last (key - last)))
                (urlEncode true (substr str (key + 1) str.length)))
          | some pos =>
              parseParamLoop flag trim str fuel (pos + 1)
                (m.insert (trim (substr str last (key - last)))
                  (urlEncode true (substr str (key + 1) (pos - key - 1))))

/-- A byte that is not in a string is none of its bytes. -/
theorem bne_of_not_mem {c : UInt8} {s : Text} (h : c ∉ s) : ∀ b ∈ s, (b != c) = true := by
  intro b hb
  rw [bne_iff_ne]
  rintro rfl
  exact h hb

theorem takeWhile_of_not_mem {c : UInt8} {s : Text} (h : c ∉ s) : s.takeWhile (· != c) = s :=
  List.takeWhile_eq_self_iff.mpr (bne_of_not_mem h)

/-- `takeWhile` takes what stands in front of the first separator. -/
theorem takeWhile_append_cons {c : UInt8} {x : Text} (h : c ∉ x) (y : Text) :
    (x ++ c :: y).takeWhile (· != c) = x := by
  rw [List.takeWhile_append_of_pos (bne_of_not_mem h), List.takeWhile_cons_of_neg (by simp),
    List.append_nil]

theorem dropWhile_of_not_mem {c : UInt8} {s : Text} (h : c ∉ s) : s.dropWhile (· != c) = [] :=
  List.dropWhile_eq_nil_iff.mpr (bne_of_not_mem h)

theorem dropWhile_append_cons {c : UInt8} {x : Text} (h : c ∉ x) (y : Text) :
    (x ++ c :: y).dropWhile (· != c) = c :: y := by
  rw [List.dropWhile_append_of_pos (bne_of_not_mem h), List.dropWhile_cons_of_neg (by simp)]

theorem findFrom_of_not_mem {c : UInt8} {front s : Text} (h : c ∉ s) :
    findFrom (front ++ s) c front.length = none := by
  rw [findFrom, List.drop_left, takeWhile_of_not_mem h, if_neg (lt_irrefl _)]

/-- `find` meets the first separator behind the position. -/
theorem findFrom_append_cons {c : UInt8} {front x : Text} (h : c ∉ x) (y : Text) :
    findFrom (front ++ (x ++ c :: y)) c front.length = some (front.length + x.length) := by
  rw [findFrom, List.drop_left, takeWhile_append_cons h, if_pos]
  rw [List.length_append, List.length_cons]
  omega

/-! ## One round -/

section Round

variable {flag : UInt8} {trim : Text → Text} {name value rest : Text} {m : FieldMap}

/-- There is no name in the rest of the string. -/
theorem parseParam_of_not_mem {str : Text} (h : 61 ∉ str) : parseParam flag trim str m = m := by
  rw [parseParam]
  split
  · rfl
  · next hdrop =>
      rw [dropWhile_of_not_mem h] at hdrop
      cases hdrop

/-- The last field. -/
theorem parseParam_last (hname : 61 ∉ name) (hvalue : flag ∉ value) :
    parseParam flag trim (name ++ 61 :: value) m = m.insert (trim name) (urlEncode true value) := by
  rw [parseParam]
  split
  · next hdrop =>
      rw [dropWhile_append_cons hname] at hdrop
      cases hdrop
  · next hdrop =>
      rw [dropWhile_append_cons hname] at hdrop
      cases hdrop
      rw [takeWhile_append_cons hname, takeWhile_of_not_mem hvalue]
      simp only
      split
      · rfl
      · next hend =>
          rw [dropWhile_of_not_mem hvalue] at hend
          cases hend

/-- A field with a separator behind it. -/
theorem parseParam_more (hname : 61 ∉ name) (hvalue : flag ∉ value) :
    parseParam flag trim (name ++ 61 :: (value ++ flag :: rest)) m =
      parseParam flag trim rest (m.insert (trim name) (urlEncode true value)) := by
  rw [parseParam]
  split
  · next hdrop =>
      rw [dropWhile_append_cons hname] at hdrop
      cases hdrop
  · next hdrop =>
      rw [dropWhile_append_cons hname] at hdrop
      cases hdrop
      rw [takeWhile_append_cons hname, takeWhile_append_cons hvalue]
      simp only
      split
      · next hend =>
          rw [dropWhile_append_cons hvalue] at hend
          cases hend
      · next hend =>
          rw [dropWhile_append_cons hvalue] at hend
          cases hend
          rfl

end Round

/-- The loop ends on every string, within a round for each byte, and gives the map.  Each round
but the last one moves the position behind a separator. -/
theorem parseParamLoop_eq {flag : UInt8} (hflag : flag ≠ 61) (trim : Text → Text)
    (fuel : Nat) (front str : Text) (m : FieldMap) (hfuel : str.length < fuel) :
    parseParamLoop flag trim (front ++ str) fuel front.length m =
      some (parseParam flag trim str m) := by
  induction fuel generalizing front str m with
  | zero => omega
  | succ fuel ih =>
      rw [parseParamLoop]
      by_cases hmem : (61 : UInt8) ∈ str
      · obtain ⟨name, tail, rfl, hname⟩ := List.eq_append_cons_of_mem hmem
        have hsub : substr (front ++ (name ++ 61 :: tail)) front.length
            (front.length + name.length - front.length) = name := by
          rw [substr, List.drop_left, Nat.add_sub_cancel_left, List.take_left]
        have htail : front ++ (name ++ 61 :: tail) = (front ++ name) ++ (61 :: tail) := by simp
        have hvalue : (front ++ (name ++ 61 :: tail)).drop (front.length + name.length + 1) =
            tail := by
          rw [show front ++ (name ++ 61 :: tail) = (front ++ name ++ [61]) ++ tail by simp,
            show front.length + name.length + 1 = (front ++ name ++ [61]).length by
              simp [Nat.add_assoc],
            List.drop_left]
        rw [findFrom_append_cons hname]
        simp only
        by_cases hflag' : flag ∈ tail
        · obtain ⟨value, rest, rfl, hend⟩ := List.eq_append_cons_of_mem hflag'
          have hnot : flag ∉ 61 :: value := by
            simp [hflag, hend]
          have hpos : findFrom ((front ++ name) ++ ((61 :: value) ++ flag :: rest)) flag
              (front ++ name).length = _ := findFrom_append_cons hnot rest
          rw [List.length_append, List.cons_append, ← htail] at hpos
          rw [hpos]
          simp only
          have hlen : front.length + name.length + (61 :: value).length -
              (front.length + name.length) - 1 = value.length := by
            rw [List.length_cons]
            omega
          rw [hsub, substr, hvalue, hlen, List.take_left, parseParam_more hname hend,
            show front ++ (name ++ 61 :: (value ++ flag :: rest)) =
              (front ++ name ++ 61 :: value ++ [flag]) ++ rest by simp,
            show front.length + name.length + (61 :: value).length + 1 =
              (front ++ name ++ 61 :: value ++ [flag]).length by simp; omega]
          apply ih
          simp only [List.length_append, List.length_cons] at hfuel
          omega
        · have hnot : flag ∉ 61 :: tail := by
            simp [hflag, hflag']
          have hpos : findFrom ((front ++ name) ++ 61 :: tail) flag (front ++ name).length = none :=
            findFrom_of_not_mem hnot
          rw [List.length_append, ← htail] at hpos
          rw [hpos]
          simp only
          rw [hsub, substr, hvalue, parseParam_last hname hflag', List.take_of_length_le]
          simp only [List.length_append, List.length_cons]
          omega
      · rw [findFrom_of_not_mem hmem, parseParam_of_not_mem hmem]

/-! ## Segments -/

/-- What a segment has in front of its first `=`. -/
def nameOf (seg : Text) : Text := seg.takeWhile (· != 61)

/-- What a segment has behind its first `=`. -/
def valueOf (seg : Text) : Text := (seg.dropWhile (· != 61)).tail

/-- The fields that the macro inserts for these segments.  The text `lead` of segments without
`=` goes in front of the next name, with the separators. -/
def readFields (flag : UInt8) (trim : Text → Text) : Text → List Text → List (Text × Text)
  | _, [] => []
  | lead, seg :: segs =>
      if 61 ∈ seg then
        (trim (lead ++ nameOf seg), urlEncode true (valueOf seg)) :: readFields flag trim [] segs
      else readFields flag trim (lead ++ seg ++ [flag]) segs

/-- Inserting fields in their order. -/
def insertAll (m : FieldMap) (fields : List (Text × Text)) : FieldMap :=
  fields.foldl (fun m e => m.insert e.1 e.2) m

/-- The macro inserts the fields of the segments between the separators. -/
theorem parseParam_eq {flag : UInt8} (hflag : flag ≠ 61) (trim : Text → Text) (lead str : Text)
    (hlead : 61 ∉ lead) (m : FieldMap) :
    parseParam flag trim (lead ++ str) m =
      insertAll m (readFields flag trim lead (str.splitOn flag)) := by
  induction hlen : str.length using Nat.strong_induction_on generalizing lead str m with
  | _ n ih =>
      by_cases hsep : flag ∈ str
      · obtain ⟨seg, rest, rfl, hseg⟩ := List.eq_append_cons_of_mem hsep
        rw [List.length_append, List.length_cons] at hlen
        rw [List.splitOn_append_cons_self_of_not_mem hseg, readFields]
        by_cases hname : (61 : UInt8) ∈ seg
        · obtain ⟨name, value, rfl, hname'⟩ := List.eq_append_cons_of_mem hname
          have hvalue : flag ∉ value := fun h => hseg (by simp [h])
          have hfront : (61 : UInt8) ∉ lead ++ name := by
            rw [List.mem_append, not_or]
            exact ⟨hlead, hname'⟩
          rw [if_pos hname, nameOf, valueOf, takeWhile_append_cons hname',
            dropWhile_append_cons hname', List.tail_cons, List.append_assoc, List.cons_append,
            ← List.append_assoc, parseParam_more hfront hvalue]
          exact ih rest.length (by omega) [] rest (by simp) _ rfl
        · have hfront : (61 : UInt8) ∉ lead ++ seg ++ [flag] := by
            simp [hlead, hname, hflag.symm]
          have hshift : lead ++ (seg ++ flag :: rest) = (lead ++ seg ++ [flag]) ++ rest := by simp
          rw [if_neg hname, hshift]
          exact ih rest.length (by omega) _ rest hfront m rfl
      · rw [List.splitOn_eq_singleton hsep, readFields]
        by_cases hname : (61 : UInt8) ∈ str
        · obtain ⟨name, value, rfl, hname'⟩ := List.eq_append_cons_of_mem hname
          have hvalue : flag ∉ value := fun h => hsep (by simp [h])
          have hfront : (61 : UInt8) ∉ lead ++ name := by
            rw [List.mem_append, not_or]
            exact ⟨hlead, hname'⟩
          rw [if_pos hname, nameOf, valueOf, takeWhile_append_cons hname',
            dropWhile_append_cons hname', List.tail_cons, ← List.append_assoc,
            parseParam_last hfront hvalue]
          rfl
        · rw [if_neg hname, parseParam_of_not_mem (by simp [hlead, hname])]
          rfl

/-- Inserting fields fills a map. -/
theorem insertAll_fills (fields : List (Text × Text)) : Fills fun m => insertAll m fields := by
  induction fields with
  | nil => exact Fills.id
  | cons e fields ih => exact ih.comp (insert_fills e.1 e.2)

/-- The map of fields has the first field with each name. -/
theorem entry_insertAll (fields : List (Text × Text)) (k : Text) :
    (insertAll [] fields).entry k = FieldMap.entry k fields := by
  induction fields with
  | nil => rfl
  | cons e fields ih =>
      obtain ⟨key, val⟩ := e
      have hone : FieldMap.insert key val [] = [(key, val)] := rfl
      rw [insertAll, List.foldl_cons, hone]
      have hfill := (insertAll_fills fields).entry_eq [(key, val)] (List.pairwise_singleton _ _) k
      rw [insertAll] at hfill
      rw [hfill, ih]
      by_cases hk : caseKey k = caseKey key
      · rw [FieldMap.entry_cons_of_eq hk, FieldMap.entry_cons_of_eq hk, Option.some_or]
      · rw [FieldMap.entry_cons_of_ne hk, FieldMap.entry_cons_of_ne hk]
        rfl

/-- Two maps of fields are the same if and only if the first field with each name is. -/
theorem insertAll_eq_iff (fields fields' : List (Text × Text)) :
    insertAll [] fields = insertAll [] fields' ↔
      ∀ k, FieldMap.entry k fields = FieldMap.entry k fields' := by
  constructor
  · intro h k
    rw [← entry_insertAll, h, entry_insertAll]
  · intro h
    apply ((insertAll_fills fields).ordered [] List.Pairwise.nil).ext
      ((insertAll_fills fields').ordered [] List.Pairwise.nil)
    intro k
    rw [entry_insertAll, entry_insertAll, h]

/-! ## The reference -/

/-- URL-decoding: a `+` is a blank, and an escape has two hexadecimal digits. -/
def urlDecoded (s : Text) : Text := unescape isXdigit true s

/-- The segments with `=`. -/
def assignments (flag : UInt8) (str : Text) : List Text := (str.splitOn flag).filter (61 ∈ ·)

/-- The fields that a string of parameters stands for: its segments with `=`, each of them split
at the first one, with the value decoded. -/
def referenceFields (flag : UInt8) (trim : Text → Text) (str : Text) : List (Text × Text) :=
  (assignments flag str).map fun seg => (trim (nameOf seg), urlDecoded (valueOf seg))

/-- The map of these fields, with the first one for each name. -/
def reference (flag : UInt8) (trim : Text → Text) (str : Text) : FieldMap :=
  insertAll [] (referenceFields flag trim str)

/-- No segment without `=` is in front of one with `=`, and in the first segment with each name
the value needs no escape. -/
structure WellSegmented (flag : UInt8) (trim : Text → Text) (str : Text) : Prop where
  order : (str.splitOn flag).Pairwise fun seg seg' => 61 ∈ seg' → 61 ∈ seg
  values : ∀ seg, (assignments flag str).find? (fun seg' =>
      decide (caseKey (trim (nameOf seg)) = caseKey (trim (nameOf seg')))) = some seg →
    ∀ c ∈ valueOf seg, charIsUnreserved c = true

/-! ## Values -/

/-- A text without `+` and `%` is its own decoding. -/
theorem unescape_of_plain {second : UInt8 → Bool} {s : Text} (h : ∀ c ∈ s, c ≠ 43 ∧ c ≠ 37) :
    unescape second true s = s := by
  induction s with
  | nil => rfl
  | cons c s ih =>
      obtain ⟨hplus, hpercent⟩ := h c List.mem_cons_self
      rw [unescape_cons_plain hplus hpercent, ih]
      intro d hd
      exact h d (List.mem_cons_of_mem _ hd)

/-- Decoding makes no text longer. -/
theorem unescape_length_le (second : UInt8 → Bool) (spaceAsPlus : Bool) (s : Text) :
    (unescape second spaceAsPlus s).length ≤ s.length := by
  induction s using unescape.induct second spaceAsPlus with
  | case1 => exact le_rfl
  | case2 c a b rest hplus ih =>
      rw [unescape, if_pos hplus, List.length_cons, List.length_cons]
      omega
  | case3 c a b rest hplus hesc ih =>
      rw [unescape, if_neg hplus, if_pos hesc]
      simp only [List.length_cons]
      omega
  | case4 c a b rest hplus hesc ih =>
      rw [unescape, if_neg hplus, if_neg hesc, List.length_cons, List.length_cons]
      omega
  | case5 c rest hshort hplus ih =>
      rw [unescape.eq_3 _ _ _ _ hshort, if_pos hplus, List.length_cons, List.length_cons]
      omega
  | case6 c rest hshort hplus ih =>
      rw [unescape.eq_3 _ _ _ _ hshort, if_neg hplus, List.length_cons, List.length_cons]
      omega

/-- A text of unreserved characters is its own encoding. -/
theorem urlEncode_of_unreserved {s : Text} (h : ∀ c ∈ s, charIsUnreserved c = true) :
    urlEncode true s = s := by
  induction s with
  | nil => rfl
  | cons c s ih =>
      rw [urlEncode_cons, escaped_unreserved (h c List.mem_cons_self), ih]
      · rfl
      · intro d hd
        exact h d (List.mem_cons_of_mem _ hd)

/-- An encoding of the same length changes blanks only. -/
theorem urlEncode_length (s : Text) :
    s.length ≤ (urlEncode true s).length ∧
      ((urlEncode true s).length ≤ s.length →
        ∀ c ∈ s, charIsUnreserved c = true ∨ c = 32) := by
  induction s with
  | nil => exact ⟨le_rfl, by simp⟩
  | cons c s ih =>
      rw [urlEncode_cons, List.length_append, List.length_cons]
      have hone : (escaped true c).length = 1 ∧ (charIsUnreserved c = true ∨ c = 32) ∨
          (escaped true c).length = 3 := by
        rw [escaped]
        split
        · next hfree => exact Or.inl ⟨rfl, Or.inl hfree⟩
        · split
          · next hspace => exact Or.inl ⟨rfl, Or.inr hspace.1⟩
          · exact Or.inr rfl
      obtain ⟨hle, hblank⟩ := ih
      rcases hone with ⟨hlen, hc⟩ | hlen
      · refine ⟨by omega, ?_⟩
        intro hshort d hd
        rcases List.mem_cons.mp hd with rfl | hd
        · exact hc
        · exact hblank (by omega) d hd
      · exact ⟨by omega, by omega⟩

/-- A blank in a string that is its own encoding is impossible. -/
theorem unreserved_of_urlEncode_eq {s : Text} (h : urlEncode true s = s)
    (hblank : ∀ c ∈ s, charIsUnreserved c = true ∨ c = 32) :
    ∀ c ∈ s, charIsUnreserved c = true := by
  induction s with
  | nil => simp
  | cons c s ih =>
      rw [urlEncode_cons] at h
      rcases hblank c List.mem_cons_self with hfree | rfl
      · rw [escaped_unreserved hfree, List.singleton_append, List.cons.injEq] at h
        rw [List.forall_mem_cons]
        exact ⟨hfree, ih h.2 fun d hd => hblank d (List.mem_cons_of_mem _ hd)⟩
      · rw [show escaped true 32 = [43] from rfl, List.singleton_append, List.cons.injEq] at h
        exact absurd h.1 (by decide)

/-- Escaping a value is unescaping it if and only if it needs neither: the one makes nothing
shorter and the other one nothing longer. -/
theorem urlEncode_eq_urlDecoded_iff (v : Text) :
    urlEncode true v = urlDecoded v ↔ ∀ c ∈ v, charIsUnreserved c = true := by
  constructor
  · intro h
    have hlen := unescape_length_le isXdigit true v
    rw [← urlDecoded, ← h] at hlen
    have hblank := (urlEncode_length v).2 hlen
    have hplain : ∀ c ∈ v, c ≠ 43 ∧ c ≠ 37 := by
      intro c hc
      rcases hblank c hc with hfree | rfl
      · exact ne_of_charIsUnreserved hfree
      · exact ⟨by decide, by decide⟩
    rw [urlDecoded, unescape_of_plain hplain] at h
    exact unreserved_of_urlEncode_eq h hblank
  · intro h
    rw [urlEncode_of_unreserved h, urlDecoded, unescape_of_plain]
    intro c hc
    exact ne_of_charIsUnreserved (h c hc)

/-! ## Names -/

/-- A separator that stays in a trimmed name and that no letter of it is taken for. -/
structure Separator (flag : UInt8) (trim : Text → Text) : Prop where
  ne_equals : flag ≠ 61
  lower : flag.toNat < 65
  ne_nul : flag ≠ 0
  subset : ∀ name, trim name ⊆ name
  keeps : ∀ front back, ∃ front' back', trim (front ++ flag :: back) = front' ++ flag :: back' ∧
    front' ⊆ front

/-- The separator of a query string and of a form. -/
theorem separator_ampersand : Separator 38 id where
  ne_equals := by decide
  lower := by decide
  ne_nul := by decide
  subset name := List.Subset.refl name
  keeps front back := ⟨front, back, rfl, List.Subset.refl front⟩

/-- Dropping bytes from a front stops at a byte that is kept. -/
theorem dropWhile_append_kept {p : UInt8 → Bool} {c : UInt8} (hc : p c = false) (x y : Text) :
    (x ++ c :: y).dropWhile p = x.dropWhile p ++ c :: y := by
  induction x with
  | nil => rw [List.nil_append, List.dropWhile_cons_of_neg (by simp [hc])]; rfl
  | cons b x ih =>
      rw [List.cons_append, List.dropWhile_cons, List.dropWhile_cons, ih]
      split <;> rfl

/-- The separator of a cookie header. -/
theorem separator_semicolon : Separator 59 trim where
  ne_equals := by decide
  lower := by decide
  ne_nul := by decide
  subset name := by
    intro c hc
    rw [trim, List.mem_reverse] at hc
    have hc' := (List.dropWhile_sublist _).subset hc
    rw [List.mem_reverse] at hc'
    exact (List.dropWhile_sublist _).subset hc'
  keeps front back := by
    refine ⟨front.dropWhile isTrimmed, (back.reverse.dropWhile isTrimmed).reverse, ?_, ?_⟩
    · rw [trim, dropWhile_append_kept rfl, List.reverse_append, List.reverse_cons,
        List.append_assoc, List.singleton_append, dropWhile_append_kept rfl, List.reverse_append,
        List.reverse_cons, List.reverse_reverse, List.append_assoc, List.singleton_append]
    · exact (List.dropWhile_sublist _).subset

/-- A name without the separator has none for the comparison either. -/
theorem Separator.not_mem_caseKey {flag : UInt8} {trim : Text → Text} (h : Separator flag trim)
    {name : Text} (hname : flag ∉ name) : flag.toNat ∉ caseKey (trim name) := by
  intro hmem
  rw [caseKey, List.mem_map] at hmem
  obtain ⟨c, hc, heq⟩ := hmem
  have hlower := h.lower
  have hflag : c = flag := by
    apply UInt8.toNat_inj.mp
    split at heq
    · omega
    · exact heq
  subst hflag
  exact hname (h.subset name ((List.takeWhile_sublist _).subset hc))

/-- The separator that a segment without `=` leaves in a name stands in front of the first
NUL. -/
theorem Separator.mem_caseKey {flag : UInt8} {trim : Text → Text} (h : Separator flag trim)
    {front : Text} (hnul : 0 ∉ front) (back : Text) :
    flag.toNat ∈ caseKey (trim (front ++ flag :: back)) := by
  obtain ⟨front', back', heq, hsub⟩ := h.keeps front back
  have hlower := h.lower
  have hnul' : (0 : UInt8) ∉ front' := fun hmem => hnul (hsub hmem)
  rw [heq, caseKey, List.takeWhile_append_of_pos (bne_of_not_mem hnul'),
    List.takeWhile_cons_of_pos (by simpa using h.ne_nul), List.mem_map]
  refine ⟨flag, by simp, ?_⟩
  rw [if_neg]
  omega

/-- Segments without `=` give no field. -/
theorem readFields_of_none {flag : UInt8} {trim : Text → Text} {segs : List Text}
    (h : ∀ seg ∈ segs, 61 ∉ seg) (lead : Text) : readFields flag trim lead segs = [] := by
  induction segs generalizing lead with
  | nil => rfl
  | cons seg segs ih =>
      rw [List.forall_mem_cons] at h
      rw [readFields, if_neg h.1, ih h.2]

/-- Behind segments with `=` only, each of them gives its own field. -/
theorem readFields_of_order {flag : UInt8} {trim : Text → Text} {segs : List Text}
    (h : segs.Pairwise fun seg seg' => 61 ∈ seg' → 61 ∈ seg) :
    readFields flag trim [] segs = (segs.filter (61 ∈ ·)).map fun seg =>
      (trim (nameOf seg), urlEncode true (valueOf seg)) := by
  induction segs with
  | nil => rfl
  | cons seg segs ih =>
      rw [List.pairwise_cons] at h
      rw [readFields]
      by_cases hseg : (61 : UInt8) ∈ seg
      · rw [if_pos hseg, List.filter_cons_of_pos (by simpa using hseg), List.map_cons, ih h.2]
        rfl
      · have hnone : ∀ seg' ∈ segs, (61 : UInt8) ∉ seg' := by
          intro seg' hmem hseg'
          exact hseg (h.1 seg' hmem hseg')
        rw [if_neg hseg, List.filter_cons_of_neg (by simpa using hseg), readFields_of_none hnone,
          List.filter_eq_nil_iff.mpr]
        · rfl
        · intro seg' hmem
          simpa using hnone seg' hmem

/-- A segment with `=` behind others gets their text into its name. -/
theorem exists_lead {flag : UInt8} (trim : Text → Text) (hflag : flag ≠ 0) {segs : List Text}
    (hnul : ∀ seg ∈ segs, 61 ∉ seg → 0 ∉ seg) {front : Text} (hfront : 0 ∉ front)
    (hsome : ∃ seg ∈ segs, 61 ∈ seg) :
    ∃ e ∈ readFields flag trim (front ++ [flag]) segs, ∃ front' back, 0 ∉ front' ∧
      e.1 = trim (front' ++ flag :: back) := by
  induction segs generalizing front with
  | nil => simp at hsome
  | cons seg segs ih =>
      rw [List.forall_mem_cons] at hnul
      rw [readFields]
      by_cases hseg : (61 : UInt8) ∈ seg
      · rw [if_pos hseg]
        refine ⟨_, List.mem_cons_self, front, nameOf seg, hfront, ?_⟩
        simp
      · rw [if_neg hseg]
        have hfront' : (0 : UInt8) ∉ front ++ [flag] ++ seg := by
          simp [hfront, hnul.1 hseg, hflag.symm]
        apply ih hnul.2 hfront'
        simpa [hseg] using hsome

/-- A segment without `=` in front of one with `=` leaves its separator in a name. -/
theorem exists_lead_of_not_order {flag : UInt8} (trim : Text → Text) (hflag : flag ≠ 0)
    {segs : List Text} (hnul : ∀ seg ∈ segs, 61 ∉ seg → 0 ∉ seg)
    (h : ¬segs.Pairwise fun seg seg' => 61 ∈ seg' → 61 ∈ seg) :
    ∃ e ∈ readFields flag trim [] segs, ∃ front back, 0 ∉ front ∧
      e.1 = trim (front ++ flag :: back) := by
  induction segs with
  | nil => exact absurd List.Pairwise.nil h
  | cons seg segs ih =>
      rw [List.pairwise_cons, not_and_or] at h
      rw [List.forall_mem_cons] at hnul
      rw [readFields]
      by_cases hseg : (61 : UInt8) ∈ seg
      · rw [if_pos hseg]
        have htail : ¬segs.Pairwise fun seg seg' => 61 ∈ seg' → 61 ∈ seg := by
          rcases h with h | h
          · exact absurd (fun _ _ _ => hseg) h
          · exact h
        obtain ⟨e, he, hform⟩ := ih hnul.2 htail
        exact ⟨e, List.mem_cons_of_mem _ he, hform⟩
      · rw [if_neg hseg, List.nil_append]
        apply exists_lead trim hflag hnul.2 (hnul.1 hseg)
        by_contra hnone
        push Not at hnone
        rcases h with h | h
        · exact h fun seg' hmem hseg' => absurd hseg' (hnone seg' hmem)
        · apply h
          apply List.Pairwise.imp_of_mem _ (List.pairwise_of_forall (fun _ _ => trivial))
          intro a b _ hb _ hmem
          exact absurd hmem (hnone b hb)

/-- No segment has its separator. -/
theorem not_mem_of_mem_splitOn {flag : UInt8} {str seg : Text} (h : seg ∈ str.splitOn flag) :
    flag ∉ seg := by
  induction hlen : str.length using Nat.strong_induction_on generalizing str with
  | _ n ih =>
      by_cases hsep : flag ∈ str
      · obtain ⟨x, rest, rfl, hx⟩ := List.eq_append_cons_of_mem hsep
        rw [List.splitOn_append_cons_self_of_not_mem hx] at h
        rcases List.mem_cons.mp h with rfl | h
        · exact hx
        · rw [List.length_append, List.length_cons] at hlen
          exact ih rest.length (by omega) h rfl
      · rw [List.splitOn_eq_singleton hsep, List.mem_singleton] at h
        rw [h]
        exact hsep

/-! ## The comparison -/

/-- The first field with a name, of the segments with `=`. -/
theorem entry_map (trim : Text → Text) (val : Text → Text) (segs : List Text) (k : Text) :
    FieldMap.entry k (segs.map fun seg => (trim (nameOf seg), val (valueOf seg))) =
      (segs.find? fun seg => decide (caseKey k = caseKey (trim (nameOf seg)))).map fun seg =>
        (trim (nameOf seg), val (valueOf seg)) := by
  rw [FieldMap.entry, List.find?_map]
  rfl

/-- With the segments in order, the values of the first segments decide. -/
theorem values_iff {flag : UInt8} {trim : Text → Text} {str : Text}
    (horder : (str.splitOn flag).Pairwise fun seg seg' => 61 ∈ seg' → 61 ∈ seg) :
    insertAll [] (readFields flag trim [] (str.splitOn flag)) = reference flag trim str ↔
      WellSegmented flag trim str := by
  rw [reference, referenceFields, insertAll_eq_iff, readFields_of_order horder]
  constructor
  · intro h
    refine ⟨horder, ?_⟩
    intro seg hfirst
    have hentry := h (trim (nameOf seg))
    rw [assignments] at hfirst
    rw [assignments, entry_map, entry_map, hfirst, Option.map_some, Option.map_some,
      Option.some.injEq, Prod.mk.injEq] at hentry
    exact (urlEncode_eq_urlDecoded_iff _).mp hentry.2
  · intro h k
    rw [assignments, entry_map, entry_map]
    cases hfind : ((str.splitOn flag).filter (61 ∈ ·)).find? fun seg =>
        decide (caseKey k = caseKey (trim (nameOf seg))) with
    | none => rfl
    | some seg =>
        have hkey : caseKey k = caseKey (trim (nameOf seg)) := by
          simpa using List.find?_some hfind
        rw [hkey] at hfind
        rw [Option.map_some, Option.map_some,
          (urlEncode_eq_urlDecoded_iff _).mpr (h.values seg hfind)]

/-- The macro reads a string of parameters as the reference does if it is clean, and only then,
but for a segment without `=` that has a NUL: the comparison of names ends there. -/
theorem parseParam_reference {flag : UInt8} {trim : Text → Text} (h : Separator flag trim)
    (str : Text) :
    (WellSegmented flag trim str → parseParam flag trim str [] = reference flag trim str) ∧
      (parseParam flag trim str [] = reference flag trim str →
        WellSegmented flag trim str ∨ ∃ seg ∈ str.splitOn flag, 61 ∉ seg ∧ 0 ∈ seg) := by
  have hparse := parseParam_eq h.ne_equals trim [] str (by simp) []
  rw [List.nil_append] at hparse
  rw [hparse]
  constructor
  · intro hclean
    exact (values_iff hclean.order).mpr hclean
  · intro heq
    by_cases horder : (str.splitOn flag).Pairwise fun seg seg' => 61 ∈ seg' → 61 ∈ seg
    · exact Or.inl ((values_iff horder).mp heq)
    · right
      by_contra hnone
      have hnul : ∀ seg ∈ str.splitOn flag, 61 ∉ seg → 0 ∉ seg := by
        intro seg hmem hseg hzero
        exact hnone ⟨seg, hmem, hseg, hzero⟩
      obtain ⟨e, he, front, back, hfront, hname⟩ :=
        exists_lead_of_not_order trim h.ne_nul hnul horder
      rw [reference, referenceFields, insertAll_eq_iff] at heq
      -- The macro has a field with this name, and no name of the reference has a separator.
      have hread : FieldMap.entry e.1 (readFields flag trim [] (str.splitOn flag)) ≠ none := by
        intro hcontra
        have hself := List.find?_eq_none.mp hcontra e he
        simp at hself
      rw [heq] at hread
      obtain ⟨e', he'⟩ := Option.ne_none_iff_exists'.mp hread
      have hmem := List.mem_of_find?_eq_some he'
      have hkey : caseKey e.1 = caseKey e'.1 := by
        simpa using List.find?_some he'
      obtain ⟨seg, hseg, rfl⟩ := List.mem_map.mp hmem
      have hsep := h.mem_caseKey hfront back
      rw [← hname, hkey] at hsep
      have hnot : flag ∉ nameOf seg := by
        intro hin
        have hsplit := not_mem_of_mem_splitOn (List.mem_of_mem_filter hseg)
        exact hsplit ((List.takeWhile_sublist _).subset hin)
      exact h.not_mem_caseKey hnot hsep

/-! ## The maps of a request -/

/-- `built` adds to a map what the reference reads in the string if that is clean, and to the
empty map only then, but for a segment without `=` that has a NUL. -/
def ReadsAsReference (flag : UInt8) (trim : Text → Text) (str : Text)
    (built : FieldMap → FieldMap) : Prop :=
  (WellSegmented flag trim str →
      ∀ m : FieldMap, m.Ordered → built m = insertAll m (referenceFields flag trim str)) ∧
    (built [] = reference flag trim str →
      WellSegmented flag trim str ∨ ∃ seg ∈ str.splitOn flag, 61 ∉ seg ∧ 0 ∈ seg)

/-- The loop of `PARSE_PARAM` reads what the reference reads. -/
theorem parseParam_readsAsReference {flag : UInt8} {trim : Text → Text} (h : Separator flag trim)
    (str : Text) : ReadsAsReference flag trim str (parseParam flag trim str) := by
  obtain ⟨hmatch, hclean⟩ := parseParam_reference h str
  refine ⟨?_, hclean⟩
  intro hstr m hm
  have hmine := parseParam_fills flag trim str
  have htheirs := insertAll_fills (referenceFields flag trim str)
  apply (hmine.ordered m hm).ext (htheirs.ordered m hm)
  intro k
  rw [hmine.entry_eq m hm, hmatch hstr, htheirs.entry_eq m hm]
  rfl

namespace ParamRequest

variable {s : ParamRequest}

theorem initQueryParam_params (h : s.parserParamFlag = 0) :
    s.initQueryParam.params = parseParam 38 id s.request.query s.params := by
  rw [initQueryParam, h, if_neg (by decide)]

/-- The first call of `init_body_param` parses the body of a form. -/
theorem initBodyParam_params (h : s.parserParamFlag = 0)
    (hform : strcasestr (s.request.getHeader (text ['c', 'o', 'n', 't', 'e', 'n', 't', '-', 't',
      'y', 'p', 'e'])) formUrlencoded = true) :
    s.initBodyParam.params = parseParam 38 id s.request.body s.params := by
  rw [initBodyParam, h, if_neg (by decide)]
  simp only [hform, Bool.not_true, Bool.false_eq_true, if_false]

/-- The first call of `init_cookies` parses the cookie header. -/
theorem initCookies_cookies (h : s.parserParamFlag = 0) :
    s.initCookies.cookies =
      parseParam 59 trim (s.request.getHeader (text ['c', 'o', 'o', 'k', 'i', 'e'])) s.cookies := by
  rw [initCookies, h, if_neg (by decide)]
  simp only
  split
  · next hempty => rw [List.isEmpty_iff.mp hempty, parseParam_of_not_mem (by simp)]
  · rfl

end ParamRequest

/-- The query, the body of a form and the cookies of a request that was received are read as the
reference reads them if they are clean, and only then, but for segments without `=` that have a
NUL; the loop ends on every string, and decoding recovers what was encoded. -/
theorem initParams_reference (r : HTTPRequest) :
    ReadsAsReference 38 id r.query
        (fun m => (ParamRequest.mk r 0 m []).initQueryParam.params) ∧
      (ParamRequest.strcasestr (r.getHeader (text ['c', 'o', 'n', 't', 'e', 'n', 't', '-', 't',
          'y', 'p', 'e'])) ParamRequest.formUrlencoded = true →
        ReadsAsReference 38 id r.body
          (fun m => (ParamRequest.mk r 0 m []).initBodyParam.params)) ∧
      ReadsAsReference 59 trim (r.getHeader (text ['c', 'o', 'o', 'k', 'i', 'e']))
        (fun m => (ParamRequest.mk r 0 [] m).initCookies.cookies) ∧
      (∀ flag trim str m, flag ≠ 61 →
        parseParamLoop flag trim str (str.length + 1) 0 m = some (parseParam flag trim str m)) ∧
      ∀ v, urlDecoded (urlEncode true v) = v := by
  refine ⟨?_, ?_, ?_, ?_, unescape_isXdigit_urlEncode true⟩
  · simp only [ParamRequest.initQueryParam_params]
    exact parseParam_readsAsReference separator_ampersand r.query
  · intro hform
    simp only [ParamRequest.initBodyParam_params, hform]
    exact parseParam_readsAsReference separator_ampersand r.body
  · simp only [ParamRequest.initCookies_cookies]
    exact parseParam_readsAsReference separator_semicolon _
  · intro flag trim str m hflag
    exact parseParamLoop_eq hflag trim _ [] str m (Nat.lt_succ_self _)

/-- Two queries that are not read as the reference reads them: the segment `a` of `a&b=1` gets
into the name, and the escape in `a=%41` is escaped. -/
theorem initQueryParam_not_reference :
    (ParamRequest.received { HTTPRequest.fresh with
        query := text ['a', '&', 'b', '=', '1'] }).initQueryParam.params =
      [(text ['a', '&', 'b'], text ['1'])] ∧
      reference 38 id (text ['a', '&', 'b', '=', '1']) = [(text ['b'], text ['1'])] ∧
      (ParamRequest.received { HTTPRequest.fresh with
        query := text ['a', '=', '%', '4', '1'] }).initQueryParam.params =
      [(text ['a'], text ['%', '2', '5', '4', '1'])] ∧
      reference 38 id (text ['a', '=', '%', '4', '1']) = [(text ['a'], text ['A'])] := by
  have hparse : ∀ q : Text, (ParamRequest.received { HTTPRequest.fresh with
      query := q }).initQueryParam.params = insertAll [] (readFields 38 id [] (q.splitOn 38)) := by
    intro q
    rw [ParamRequest.initQueryParam_params rfl]
    exact parseParam_eq (by decide : (38 : UInt8) ≠ 61) id [] q (by simp) []
  rw [hparse, hparse]
  decide

end Http
end Tiger
