import Tiger.Http.Message

/-!
# HTTP - maps of header fields

A map of header fields is ordered by its names, which are compared without regard to case.
Printing such a map and setting the fields again, one after the other, gives the map back.

Main results:

- Theorem `setAll_set`: setting the fields of an ordered map behind another field sets that
  field in the map.
- Theorem `find_set_self`, `find_set_of_ne`: what setting a field does to a lookup.
- Theorem `Ordered.ext`: ordered maps with the same fields are equal.
- Theorems `entry_set_self`, `entry_erase_self`: what an operation does to the field of a name.
-/

namespace Tiger
namespace Http
namespace FieldMap

variable {m m' l : FieldMap} {k key v val : Text}

/-- The names are strictly ascending. -/
def Ordered (m : FieldMap) : Prop := m.Pairwise fun a b => caseInsensitiveLess a.1 b.1 = true

/-- The fields of a list, set one after the other. -/
def setAll (m : FieldMap) (l : List (Text × Text)) : FieldMap :=
  l.foldl (fun m e => m.set e.1 e.2) m

theorem setAll_append (m : FieldMap) (l l' : List (Text × Text)) :
    setAll m (l ++ l') = setAll (setAll m l) l' := List.foldl_append

theorem less_iff : caseInsensitiveLess k key = true ↔ caseKey k < caseKey key := by
  rw [caseInsensitiveLess, decide_eq_true_eq]

theorem set_cons_of_less (h : caseKey key < caseKey k) :
    set key val ((k, v) :: l) = (key, val) :: (k, v) :: l := by
  rw [set, if_pos (less_iff.mpr h)]

theorem set_cons_of_greater (h : caseKey k < caseKey key) :
    set key val ((k, v) :: l) = (k, v) :: set key val l := by
  rw [set, if_neg (by rw [less_iff]; exact h.not_gt), if_pos (less_iff.mpr h)]

/-- A name that is there gets the value and keeps its spelling. -/
theorem set_cons_of_eq (h : caseKey k = caseKey key) :
    set key val ((k, v) :: l) = (k, val) :: l := by
  rw [set, if_neg (by rw [less_iff, h]; exact lt_irrefl _),
    if_neg (by rw [less_iff, h]; exact lt_irrefl _)]

/-- A field behind all others is appended. -/
theorem set_of_greater (h : ∀ e ∈ l, caseKey e.1 < caseKey key) :
    set key val l = l ++ [(key, val)] := by
  induction l with
  | nil => rfl
  | cons e l ih =>
      rw [set_cons_of_greater (h e List.mem_cons_self), List.cons_append,
        ih fun e' he' => h e' (List.mem_cons_of_mem e he')]

/-- A field behind all others may be set first. -/
theorem set_set (hord : ∀ e ∈ l, caseKey e.1 < caseKey k) (hl : Ordered l)
    (hne : caseKey k ≠ caseKey key) :
    set k v (set key val l) = set key val (l ++ [(k, v)]) := by
  induction l with
  | nil =>
      change set k v [(key, val)] = set key val [(k, v)]
      rcases lt_or_gt_of_ne hne with hlt | hgt
      · rw [set_cons_of_less hlt, set_cons_of_greater hlt]
        rfl
      · rw [set_cons_of_greater hgt, set_cons_of_less hgt]
        rfl
  | cons e l ih =>
      obtain ⟨a, b⟩ := e
      have ha : caseKey a < caseKey k := hord (a, b) List.mem_cons_self
      have htail : ∀ e ∈ l, caseKey e.1 < caseKey k := fun e he =>
        hord e (List.mem_cons_of_mem _ he)
      rw [List.cons_append]
      rcases lt_trichotomy (caseKey key) (caseKey a) with hlt | heq | hgt
      · rw [set_cons_of_less hlt, set_cons_of_less hlt, set_cons_of_greater (hlt.trans ha),
          set_cons_of_greater ha, set_of_greater htail]
      · rw [set_cons_of_eq heq.symm, set_cons_of_eq heq.symm, set_cons_of_greater ha,
          set_of_greater htail]
      · rw [set_cons_of_greater hgt, set_cons_of_greater hgt, set_cons_of_greater ha,
          ih htail (List.pairwise_cons.mp hl).2]

/-- Setting the fields of an ordered map gives the map. -/
theorem setAll_ordered (hord : Ordered (m ++ l)) : setAll m l = m ++ l := by
  induction l generalizing m with
  | nil => rw [List.append_nil]; rfl
  | cons e l ih =>
      have happ : m ++ e :: l = (m ++ [e]) ++ l := by simp
      have hless : ∀ e' ∈ m, caseKey e'.1 < caseKey e.1 := fun e' he' =>
        less_iff.mp ((List.pairwise_append.mp hord).2.2 e' he' e List.mem_cons_self)
      rw [happ] at hord ⊢
      rw [← ih hord, ← set_of_greater hless]
      rfl

/-- Setting the fields of an ordered map behind another field sets that field in the map. -/
theorem setAll_set (hord : Ordered (m ++ l)) (hne : ∀ e ∈ l, caseKey e.1 ≠ caseKey key) :
    setAll (set key val m) l = set key val (m ++ l) := by
  induction l generalizing m with
  | nil => rw [List.append_nil]; rfl
  | cons e l ih =>
      have happ : m ++ e :: l = (m ++ [e]) ++ l := by simp
      have hfirst := List.pairwise_append.mp hord
      have hless : ∀ e' ∈ m, caseKey e'.1 < caseKey e.1 := fun e' he' =>
        less_iff.mp (hfirst.2.2 e' he' e List.mem_cons_self)
      have hset : set e.1 e.2 (set key val m) = set key val (m ++ [e]) :=
        set_set hless hfirst.1 (hne e List.mem_cons_self)
      rw [happ] at hord ⊢
      rw [← ih hord fun e' he' => hne e' (List.mem_cons_of_mem e he'), ← hset]
      rfl

/-- Another name is looked for in the rest. -/
theorem find_cons_of_ne (h : caseKey key ≠ caseKey k) : find key ((k, v) :: l) = find key l := by
  rw [find, if_pos]
  rw [Bool.or_eq_true, less_iff, less_iff]
  exact lt_or_gt_of_ne h

/-- The name is found at the front. -/
theorem find_cons_of_eq (h : caseKey key = caseKey k) : find key ((k, v) :: l) = some v := by
  rw [find, if_neg]
  rw [Bool.or_eq_true, less_iff, less_iff, h]
  simp

/-- A field that was set is found. -/
theorem find_set_self (m : FieldMap) : find key (set key val m) = some val := by
  induction m with
  | nil => exact find_cons_of_eq rfl
  | cons e m ih =>
      obtain ⟨a, b⟩ := e
      rcases lt_trichotomy (caseKey key) (caseKey a) with hlt | heq | hgt
      · rw [set_cons_of_less hlt, find_cons_of_eq rfl]
      · rw [set_cons_of_eq heq.symm, find_cons_of_eq heq]
      · rw [set_cons_of_greater hgt, find_cons_of_ne hgt.ne', ih]

/-- Setting a field leaves the others alone. -/
theorem find_set_of_ne (m : FieldMap) (hne : caseKey k ≠ caseKey key) :
    find k (set key val m) = find k m := by
  induction m with
  | nil => exact find_cons_of_ne hne
  | cons e m ih =>
      obtain ⟨a, b⟩ := e
      rcases lt_trichotomy (caseKey key) (caseKey a) with hlt | heq | hgt
      · rw [set_cons_of_less hlt, find_cons_of_ne hne]
      · rw [set_cons_of_eq heq.symm, find_cons_of_ne (heq ▸ hne), find_cons_of_ne (heq ▸ hne)]
      · rw [set_cons_of_greater hgt]
        by_cases hk : caseKey k = caseKey a
        · rw [find_cons_of_eq hk, find_cons_of_eq hk]
        · rw [find_cons_of_ne hk, find_cons_of_ne hk, ih]

/-- A lookup does not see fields of other names. -/
theorem find_filter (p : Text × Text → Bool) (h : ∀ e ∈ m, caseKey key = caseKey e.1 → p e = true) :
    find key (m.filter p) = find key m := by
  induction m with
  | nil => rfl
  | cons e m ih =>
      obtain ⟨a, b⟩ := e
      have htail := ih fun e he => h e (List.mem_cons_of_mem _ he)
      by_cases hkey : caseKey key = caseKey a
      · rw [List.filter_cons, if_pos (h (a, b) List.mem_cons_self hkey), find_cons_of_eq hkey,
          find_cons_of_eq hkey]
      · rw [List.filter_cons, find_cons_of_ne hkey]
        split
        · rw [find_cons_of_ne hkey, htail]
        · exact htail

/-- A name that no field has is not found. -/
theorem find_eq_none (h : ∀ e ∈ m, caseKey key ≠ caseKey e.1) : find key m = none := by
  induction m with
  | nil => rfl
  | cons e m ih =>
      obtain ⟨a, b⟩ := e
      rw [find_cons_of_ne (h (a, b) List.mem_cons_self)]
      exact ih fun e he => h e (List.mem_cons_of_mem _ he)

/-! ## Fields and their names -/

/-- `m.erase(key)` -/
def erase (key : Text) (m : FieldMap) : FieldMap :=
  m.filter fun e => caseInsensitiveLess key e.1 || caseInsensitiveLess e.1 key

/-- The field that a lookup meets, with its name as the map has it. -/
def entry (key : Text) (m : FieldMap) : Option (Text × Text) :=
  m.find? fun e => decide (caseKey key = caseKey e.1)

theorem entry_cons_of_eq (h : caseKey key = caseKey k) :
    entry key ((k, v) :: m) = some (k, v) := by
  rw [entry, List.find?_cons_of_pos (by simpa using h)]

theorem entry_cons_of_ne (h : caseKey key ≠ caseKey k) : entry key ((k, v) :: m) = entry key m := by
  rw [entry, List.find?_cons_of_neg (by simpa using h)]
  rfl

theorem entry_congr (h : caseKey k = caseKey key) : entry k m = entry key m := by
  rw [entry, entry, h]

/-- A lookup gives the value of its field. -/
theorem find_eq_entry (key : Text) (m : FieldMap) : find key m = (entry key m).map Prod.snd := by
  induction m with
  | nil => rfl
  | cons e m ih =>
      obtain ⟨a, b⟩ := e
      by_cases h : caseKey key = caseKey a
      · rw [find_cons_of_eq h, entry_cons_of_eq h]
        rfl
      · rw [find_cons_of_ne h, entry_cons_of_ne h, ih]

theorem find_eq_none_iff : find key m = none ↔ entry key m = none := by
  rw [find_eq_entry, Option.map_eq_none_iff]

/-- No field has a name in front of the first one. -/
theorem entry_of_less (hord : Ordered ((k, v) :: m)) (h : caseKey key < caseKey k) :
    entry key ((k, v) :: m) = none := by
  apply List.find?_eq_none.mpr
  intro e he
  rcases List.mem_cons.mp he with rfl | he
  · simpa using h.ne
  · have hless := less_iff.mp ((List.pairwise_cons.mp hord).1 e he)
    simpa using (h.trans hless).ne

/-- The members of an ordered map are the entries of their names. -/
theorem mem_iff_entry (hord : Ordered m) (e : Text × Text) : e ∈ m ↔ entry e.1 m = some e := by
  constructor
  · intro he
    induction m with
    | nil => simp at he
    | cons e' m ih =>
        obtain ⟨a, b⟩ := e'
        rcases List.mem_cons.mp he with rfl | he
        · exact entry_cons_of_eq rfl
        · have hless := less_iff.mp ((List.pairwise_cons.mp hord).1 e he)
          rw [entry_cons_of_ne hless.ne']
          exact ih (List.pairwise_cons.mp hord).2 he
  · exact List.mem_of_find?_eq_some

/-- An ordered map has no entry twice. -/
theorem Ordered.nodup (hord : Ordered m) : m.Nodup := by
  apply List.Pairwise.imp _ hord
  rintro a b hless rfl
  exact lt_irrefl _ (less_iff.mp hless)

/-- Ordered maps with the same fields are equal. -/
theorem Ordered.ext (hm : Ordered m) (hm' : Ordered m') (h : ∀ k, entry k m = entry k m') :
    m = m' := by
  have hperm : m.Perm m' := by
    rw [List.perm_ext_iff_of_nodup hm.nodup hm'.nodup]
    intro e
    rw [mem_iff_entry hm, mem_iff_entry hm', h]
  refine hperm.eq_of_pairwise ?_ hm hm'
  intro a b _ _ hab hba
  exact absurd (less_iff.mp hab) (less_iff.mp hba).not_gt

/-! ## The operations of the map -/

/-- A member behind a setting has the name, or was there. -/
theorem mem_set {e : Text × Text} (he : e ∈ set key val m) :
    caseKey e.1 = caseKey key ∨ e ∈ m := by
  induction m with
  | nil =>
      rw [List.mem_singleton.mp he]
      exact .inl rfl
  | cons e' m ih =>
      obtain ⟨a, b⟩ := e'
      rcases lt_trichotomy (caseKey key) (caseKey a) with hlt | heq | hgt
      · rw [set_cons_of_less hlt] at he
        rcases List.mem_cons.mp he with rfl | he
        · exact .inl rfl
        · exact .inr he
      · rw [set_cons_of_eq heq.symm] at he
        rcases List.mem_cons.mp he with rfl | he
        · exact .inl heq.symm
        · exact .inr (List.mem_cons_of_mem _ he)
      · rw [set_cons_of_greater hgt] at he
        rcases List.mem_cons.mp he with rfl | he
        · exact .inr List.mem_cons_self
        · exact (ih he).imp_right (List.mem_cons_of_mem _)

/-- Setting a field keeps the map ordered. -/
theorem Ordered.set (hord : Ordered m) (key val : Text) : Ordered (set key val m) := by
  induction m with
  | nil => exact List.pairwise_singleton _ _
  | cons e m ih =>
      obtain ⟨a, b⟩ := e
      rcases List.pairwise_cons.mp hord with ⟨hfirst, hrest⟩
      rcases lt_trichotomy (caseKey key) (caseKey a) with hlt | heq | hgt
      · rw [set_cons_of_less hlt]
        refine List.pairwise_cons.mpr ⟨?_, hord⟩
        intro e he
        rcases List.mem_cons.mp he with rfl | he
        · exact less_iff.mpr hlt
        · exact less_iff.mpr (hlt.trans (less_iff.mp (hfirst e he)))
      · rw [set_cons_of_eq heq.symm]
        exact List.pairwise_cons.mpr ⟨hfirst, hrest⟩
      · rw [set_cons_of_greater hgt]
        refine List.pairwise_cons.mpr ⟨?_, ih hrest⟩
        intro e he
        rcases mem_set he with hkey | he
        · exact less_iff.mpr (hkey ▸ hgt)
        · exact hfirst e he

theorem Ordered.erase (hord : Ordered m) (key : Text) : Ordered (erase key m) :=
  hord.filter _

/-- Setting a field keeps the entries of other names. -/
theorem entry_set_of_ne (m : FieldMap) (hne : caseKey k ≠ caseKey key) :
    entry k (set key val m) = entry k m := by
  induction m with
  | nil => exact entry_cons_of_ne hne
  | cons e m ih =>
      obtain ⟨a, b⟩ := e
      rcases lt_trichotomy (caseKey key) (caseKey a) with hlt | heq | hgt
      · rw [set_cons_of_less hlt, entry_cons_of_ne hne]
      · rw [set_cons_of_eq heq.symm, entry_cons_of_ne (heq ▸ hne), entry_cons_of_ne (heq ▸ hne)]
      · rw [set_cons_of_greater hgt]
        by_cases hk : caseKey k = caseKey a
        · rw [entry_cons_of_eq hk, entry_cons_of_eq hk]
        · rw [entry_cons_of_ne hk, entry_cons_of_ne hk, ih]

/-- The name of a field under the spelling that the map has for it. -/
def spelling (key : Text) (m : FieldMap) : Text := ((entry key m).map Prod.fst).getD key

/-- A field that is there keeps its name. -/
theorem entry_set_self (hord : Ordered m) :
    entry key (set key val m) = some (spelling key m, val) := by
  induction m with
  | nil => exact entry_cons_of_eq rfl
  | cons e m ih =>
      obtain ⟨a, b⟩ := e
      rcases lt_trichotomy (caseKey key) (caseKey a) with hlt | heq | hgt
      · rw [set_cons_of_less hlt, entry_cons_of_eq rfl, spelling, entry_of_less hord hlt]
        rfl
      · rw [set_cons_of_eq heq.symm, entry_cons_of_eq heq, spelling, entry_cons_of_eq heq]
        rfl
      · rw [set_cons_of_greater hgt, entry_cons_of_ne hgt.ne', ih (List.pairwise_cons.mp hord).2,
          spelling, spelling, entry_cons_of_ne hgt.ne']

/-- Erasing a field keeps the entries of other names. -/
theorem entry_erase_of_ne (m : FieldMap) (hne : caseKey k ≠ caseKey key) :
    entry k (erase key m) = entry k m := by
  rw [entry, entry, erase, List.find?_filter]
  congr 1
  funext e
  by_cases hk : caseKey k = caseKey e.1
  · have hless : (caseInsensitiveLess key e.1 || caseInsensitiveLess e.1 key) = true := by
      rw [Bool.or_eq_true, less_iff, less_iff]
      exact lt_or_gt_of_ne fun h => hne (hk.trans h.symm)
    simp [hk, hless]
  · simp [hk]

/-- An erased field has no entry. -/
theorem entry_erase_self (m : FieldMap) : entry key (erase key m) = none := by
  apply List.find?_eq_none.mpr
  intro e he
  have hless := (List.mem_filter.mp he).2
  rw [Bool.or_eq_true, less_iff, less_iff] at hless
  rw [decide_eq_true_eq]
  intro heq
  rcases hless with h | h
  · exact h.ne heq
  · exact h.ne' heq

end FieldMap
end Http
end Tiger
