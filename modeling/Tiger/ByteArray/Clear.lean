import Tiger.ByteArray.Flat
import Tiger.Lib.Simulation

/-!
# ByteArray - clearing

This module embeds `ByteArray::clear` (`src/bytearray.cc`).  A new object has one node that
`m_capacity` does not account for, so the cursor is always inside of a node.  A cleared object
has one node and `m_capacity` accounts for it: the cursor can be set to the end of the last
node, and there is no node behind it.  `add_free_capacity_to` appends nodes then, but it tests
its counter behind the loop that counts it down, and `m_cur` stays where it is.

Main results:

- Theorem `write_inside`: where the cursor is inside of a node, `write` stores its bytes at the
  cursor and leaves those in front of it alone.
- Theorem `write_at_end`: at the end of the last node it starts in that node again.
- Theorem `lands_iff`: all reads and writes of a run start in the node of the cursor exactly if
  no bytes are written at the end of the last node.
-/

namespace Tiger
namespace ByteArray

/-! ## Operations -/

/-- `clear()`.  The blocks that are allocated afterwards are other ones; `junk` says what they
happen to hold. -/
def clear (junk : Nat → Nat → UInt8) (s : ByteArray) : ByteArray :=
  { s with
    position := 0
    size := 0
    capacity := s.baseSize
    nodes := s.nodes.take 1
    cur := 0
    junk := junk }

/-- The storage commands and `clear()`. -/
inductive Call
  | cmd (c : Cmd)
  | clear (junk : Nat → Nat → UInt8)

/-- The object behind a call. -/
def next (s : ByteArray) : Call → ByteArray
  | .cmd c => (step s c).2
  | .clear junk => s.clear junk

/-! ## Loops that end with the last node -/

section Loops

variable {base : Nat} {nodes : List Node}

/-- The end of the last node is looked for in the last node. -/
theorem seekLoop_end (hsize : ∀ n ∈ nodes, n.size = base) (hbase : 0 < base) (hne : nodes ≠ []) :
    seekLoop (nodes.length * base) nodes = .ok (nodes.length - 1) := by
  induction nodes with
  | nil => exact absurd rfl hne
  | cons node rest ih =>
      have hhead := hsize node List.mem_cons_self
      rw [seekLoop, hhead, List.length_cons, Nat.succ_mul]
      by_cases hrest : rest = []
      · subst hrest
        simp
        rfl
      · have hpos : 0 < rest.length * base :=
          Nat.mul_pos (List.length_pos_of_ne_nil hrest) hbase
        have hlen := List.length_pos_of_ne_nil hrest
        rw [if_pos (by omega), Nat.add_sub_cancel,
          ih (fun n hn => hsize n (List.mem_cons_of_mem _ hn)) hrest]
        have hadd : rest.length - 1 + 1 = rest.length + 1 - 1 := by omega
        simp only [bind, Except.bind, pure, Except.pure, hadd]

/-- Seeking to a position inside the blocks or right behind them ends in the block of the position
or in the last one. -/
theorem seekLoop_le (hsize : ∀ n ∈ nodes, n.size = base) (hbase : 0 < base) (hne : nodes ≠ [])
    {v : Nat} (hv : v ≤ nodes.length * base) :
    seekLoop v nodes = .ok (min (v / base) (nodes.length - 1)) := by
  have hlen := List.length_pos_of_ne_nil hne
  rcases Nat.lt_or_eq_of_le hv with hlt | rfl
  · have hdiv := Nat.div_lt_of_lt_mul (Nat.mul_comm _ _ ▸ hlt)
    rw [seekLoop_spec hsize hbase hlt, Nat.min_eq_left (by omega)]
  · rw [seekLoop_end hsize hbase hne, Nat.mul_div_cancel _ hbase, Nat.min_eq_right (by omega)]

/-- A read up to the end of the last node stays in it. -/
theorem readLoop_end (hsize : ∀ n ∈ nodes, n.size = base) (hne : nodes ≠ []) {npos size : Nat}
    (hnpos : npos < base) (hend : npos + size = nodes.length * base) :
    readLoop npos size nodes = .ok (((contents nodes).drop npos).take size, nodes.length - 1) := by
  induction nodes generalizing npos size with
  | nil => exact absurd rfl hne
  | cons node rest ih =>
      have hhead := hsize node List.mem_cons_self
      have hptr : node.ptr.length = base := node.ptr_length.trans hhead
      have hcons : contents (node :: rest) = node.ptr ++ contents rest := rfl
      rw [List.length_cons, Nat.succ_mul] at hend
      rw [readLoop, hhead, hcons, List.drop_append_of_le_length (by omega)]
      by_cases hrest : rest = []
      · subst hrest
        rw [List.length_nil, Nat.zero_mul, Nat.zero_add] at hend
        rw [if_pos (by omega), Node.load, if_pos (by omega)]
        simp [bind, Except.bind, pure, Except.pure, contents]
      · have hlen := List.length_pos_of_ne_nil hrest
        have hpos : 0 < rest.length * base := Nat.mul_pos hlen (by omega)
        have hdrop : (node.ptr.drop npos).length = base - npos := by rw [List.length_drop, hptr]
        rw [if_neg (by omega), Node.load, if_pos (by omega),
          ih (fun n hn => hsize n (List.mem_cons_of_mem _ hn)) hrest (by omega) (by omega)]
        have hadd : rest.length - 1 + 1 = rest.length := by omega
        simp only [bind, Except.bind, pure, Except.pure, List.drop_zero, hadd, List.length_cons,
          Nat.add_sub_cancel]
        rw [List.take_append, hdrop, List.take_of_length_le (l := node.ptr.drop npos) (by omega),
          List.take_of_length_le (l := node.ptr.drop npos) (by omega)]

/-- Reading inside the blocks returns their bytes and ends in the block behind them or in the last
one. -/
theorem readLoop_le (hsize : ∀ n ∈ nodes, n.size = base) (hne : nodes ≠ []) {npos size : Nat}
    (hnpos : npos < base) (hfits : npos + size ≤ nodes.length * base) :
    readLoop npos size nodes = .ok (((contents nodes).drop npos).take size,
      min ((npos + size) / base) (nodes.length - 1)) := by
  have hlen := List.length_pos_of_ne_nil hne
  rcases Nat.lt_or_eq_of_le hfits with hlt | heq
  · have hdiv := Nat.div_lt_of_lt_mul (Nat.mul_comm _ _ ▸ hlt)
    rw [readLoop_spec hsize hnpos hlt, Nat.min_eq_left (by omega)]
  · rw [readLoop_end hsize hne hnpos heq, heq, Nat.mul_div_cancel _ (by omega),
      Nat.min_eq_right (by omega)]

end Loops

/-! ## The invariant -/

/-- What holds between calls when objects may be cleared: `m_capacity` accounts for all nodes,
or for all but one, and the cursor node is that of the cursor or the last one. -/
structure Held (s : ByteArray) : Prop where
  base_pos : 0 < s.baseSize
  nonempty : s.nodes ≠ []
  node_size : ∀ node ∈ s.nodes, node.size = s.baseSize
  nodes_bytes : s.nodes.length * s.baseSize = s.capacity ∨
    s.nodes.length * s.baseSize = s.capacity + s.baseSize
  position_le : s.position ≤ s.size
  size_le : s.size ≤ s.capacity
  cur_eq : s.cur = min (s.position / s.baseSize) (s.nodes.length - 1)

/-- A fresh array holds its blocks. -/
theorem held_new (junk : Nat → Nat → UInt8) {baseSize : Nat} (hbase : 0 < baseSize) :
    Held (new junk baseSize) where
  base_pos := hbase
  nonempty := List.cons_ne_nil _ _
  node_size := (inv_new junk hbase).node_size
  nodes_bytes := .inr (inv_new junk hbase).nodes_bytes
  position_le := le_rfl
  size_le := le_rfl
  cur_eq := by simp [new]

/-- An array holds its blocks behind `clear`. -/
theorem Held.clear {s : ByteArray} (h : Held s) (junk : Nat → Nat → UInt8) :
    Held (s.clear junk) := by
  have hlen : (s.nodes.take 1).length = 1 := by
    have hpos := List.length_pos_of_ne_nil h.nonempty
    rw [List.length_take]
    omega
  refine ⟨h.base_pos, ?_, ?_, ?_, le_rfl, Nat.zero_le _, ?_⟩
  · exact List.ne_nil_of_length_pos (hlen ▸ Nat.zero_lt_one)
  · exact fun node hnode => h.node_size node (List.mem_of_mem_take hnode)
  · change (s.nodes.take 1).length * s.baseSize = s.baseSize ∨ _
    rw [hlen, Nat.one_mul]
    exact .inl rfl
  · change 0 = min (0 / s.baseSize) _
    rw [Nat.zero_div, Nat.zero_min]

namespace Held

variable {s : ByteArray} {buf : List UInt8}

theorem capacity_le (h : Held s) : s.capacity ≤ s.nodes.length * s.baseSize := by
  rcases h.nodes_bytes with hbytes | hbytes <;> omega

theorem position_le_nodes (h : Held s) : s.position ≤ s.nodes.length * s.baseSize :=
  (h.position_le.trans h.size_le).trans h.capacity_le

/-- The current block is one of the blocks. -/
theorem cur_lt (h : Held s) : s.cur < s.nodes.length := by
  have hlen := List.length_pos_of_ne_nil h.nonempty
  rw [h.cur_eq]
  omega

/-- Inside of the nodes the cursor node is that of the cursor. -/
theorem cur_inside (h : Held s) (hin : s.position < s.nodes.length * s.baseSize) :
    s.cur = s.position / s.baseSize := by
  have hdiv := Nat.div_lt_of_lt_mul (Nat.mul_comm _ _ ▸ hin)
  rw [h.cur_eq, Nat.min_eq_left (by omega)]

/-- At the end of the last node it is the last one. -/
theorem cur_at_end (h : Held s) (hend : s.position = s.nodes.length * s.baseSize) :
    s.cur + 1 = s.position / s.baseSize := by
  have hlen := List.length_pos_of_ne_nil h.nonempty
  rw [h.cur_eq, hend, Nat.mul_div_cancel _ h.base_pos]
  omega

/-- Inside the blocks, the position is said by the current block and the rest in it. -/
theorem position_eq (h : Held s) (hin : s.position < s.nodes.length * s.baseSize) :
    s.cur * s.baseSize + s.position % s.baseSize = s.position := by
  rw [h.cur_inside hin, Nat.mul_comm]
  exact Nat.div_add_mod _ _

/-- The blocks in front of the current one are full. -/
theorem take_cur_length (h : Held s) :
    (contents (s.nodes.take s.cur)).length = s.cur * s.baseSize := by
  rw [contents_length fun n hn => h.node_size n (List.mem_of_mem_take hn), List.length_take,
    Nat.min_eq_left h.cur_lt.le]

/-- The bytes of the nodes from the cursor node on. -/
theorem drop_bytes (h : Held s) (hin : s.position < s.nodes.length * s.baseSize) :
    s.position + (s.nodes.drop s.cur).length * s.baseSize =
      s.nodes.length * s.baseSize + s.position % s.baseSize := by
  have hpos := h.position_eq hin
  have hmul := Nat.mul_le_mul_right s.baseSize h.cur_lt.le
  rw [List.length_drop, Nat.sub_mul]
  omega

/-- Moving on by bytes that fit moves the cursor node on, up to the last one. -/
theorem cur_add (h : Held s) (hin : s.position < s.nodes.length * s.baseSize) (n : Nat) :
    s.cur + min ((s.position % s.baseSize + n) / s.baseSize) ((s.nodes.drop s.cur).length - 1) =
      min ((s.position + n) / s.baseSize) (s.nodes.length - 1) := by
  have hdiv : s.cur + (s.position % s.baseSize + n) / s.baseSize =
      (s.position + n) / s.baseSize := by
    conv_rhs => rw [← h.position_eq hin]
    rw [Nat.add_assoc, Nat.add_comm (s.cur * s.baseSize),
      Nat.add_mul_div_right _ _ h.base_pos, Nat.add_comm]
  have hcur := h.cur_lt
  rw [List.length_drop, ← hdiv]
  omega

/-- More nodes keep the invariant where the cursor is inside of the nodes. -/
theorem grow (h : Held s) (hin : s.position < s.nodes.length * s.baseSize) {fresh : List Node}
    {extra : Nat} (hfresh : ∀ node ∈ fresh, node.size = s.baseSize)
    (hextra : fresh.length * s.baseSize = extra) :
    Held { s with nodes := s.nodes ++ fresh, capacity := s.capacity + extra } := by
  have hdiv := Nat.div_lt_of_lt_mul (Nat.mul_comm _ _ ▸ hin)
  refine ⟨h.base_pos, ?_, ?_, ?_, h.position_le, h.size_le.trans (Nat.le_add_right _ _), ?_⟩
  · exact List.append_ne_nil_of_left_ne_nil h.nonempty _
  · intro node hnode
    rcases List.mem_append.mp hnode with hnode | hnode
    · exact h.node_size node hnode
    · exact hfresh node hnode
  · change (s.nodes ++ fresh).length * s.baseSize = s.capacity + extra ∨
      (s.nodes ++ fresh).length * s.baseSize = s.capacity + extra + s.baseSize
    rw [List.length_append, Nat.add_mul, hextra]
    rcases h.nodes_bytes with hbytes | hbytes <;> omega
  · change s.cur = min (s.position / s.baseSize) ((s.nodes ++ fresh).length - 1)
    rw [h.cur_inside hin, List.length_append]
    omega

end Held

/-! ## Specifications of the operations -/

section Specs

variable {s : ByteArray} {buf : List UInt8}

/-- Where the cursor is inside of the nodes, `write` starts in the node of the cursor, stores its
bytes at the cursor and leaves those in front of it alone. -/
theorem write_inside (h : Held s) (hin : s.position < s.nodes.length * s.baseSize)
    (buf : List UInt8) :
    (s.addFreeCapacityTo buf.length).cur = s.position / s.baseSize ∧
      ∃ s', write buf s = (.ok (), s') ∧ Held s' ∧
        (contents s'.nodes).take s.position = (contents s.nodes).take s.position ∧
        ((contents s'.nodes).drop s.position).take buf.length = buf := by
  obtain ⟨fresh, extra, heq, hfresh, hextra, hroom⟩ :=
    addFreeCapacityTo_grows h.base_pos (h.position_le.trans h.size_le) buf.length
  have hlen : (contents s.nodes).length = s.nodes.length * s.baseSize := contents_length h.node_size
  refine ⟨by rw [heq]; exact h.cur_inside hin, ?_⟩
  unfold write
  by_cases hempty : buf.length = 0
  · have hnil := List.length_eq_zero_iff.mp hempty
    exact ⟨s, by rw [if_pos hempty], h, rfl, by simp [hnil]⟩
  · have hgrown := h.grow hin hfresh hextra
    simp only [if_neg hempty, heq]
    set grown : ByteArray :=
      { s with nodes := s.nodes ++ fresh, capacity := s.capacity + extra } with hdef
    have hcap : grown.position + buf.length < grown.nodes.length * grown.baseSize :=
      Nat.lt_of_lt_of_le hroom hgrown.capacity_le
    have hin' : grown.position < grown.nodes.length * grown.baseSize := by omega
    have hfit : grown.position % grown.baseSize + buf.length <
        (grown.nodes.drop grown.cur).length * grown.baseSize := by
      have hdrop := hgrown.drop_bytes hin'
      omega
    obtain ⟨nodes', hloop, hcontents, hlen', hsizes⟩ := writeLoop_spec
      (fun n hn => hgrown.node_size n (List.mem_of_mem_drop hn)) (Nat.mod_lt _ hgrown.base_pos) hfit
    have hloop' : writeLoop (s.position % s.baseSize) buf
        (List.drop s.cur (s.nodes ++ fresh)) =
        .ok (nodes', (s.position % s.baseSize + buf.length) / s.baseSize) := hloop
    rw [hloop']
    have hall : contents (grown.nodes.take grown.cur ++ nodes') =
        overwrite (contents grown.nodes) grown.position buf := by
      rw [contents_append, hcontents, ← overwrite_append_right, hgrown.take_cur_length,
        hgrown.position_eq hin', ← contents_append, List.take_append_drop]
    have hle : grown.position ≤ (contents grown.nodes).length := by
      rw [contents_length hgrown.node_size]
      exact hin'.le
    have hlength : (grown.nodes.take grown.cur ++ nodes').length = grown.nodes.length :=
      spliced_length hlen'
    have hmax : (if s.position + buf.length > s.size then s.position + buf.length
        else s.size) = max s.size (s.position + buf.length) := by
      split <;> omega
    refine ⟨_, rfl, ⟨h.base_pos, ?_, ?_, ?_, ?_, ?_, ?_⟩, ?_, ?_⟩
    · exact List.ne_nil_of_length_pos (hlength ▸ List.length_pos_of_ne_nil hgrown.nonempty)
    · exact spliced_sizes hgrown.node_size hsizes
    · change (grown.nodes.take grown.cur ++ nodes').length * grown.baseSize = _ ∨
        (grown.nodes.take grown.cur ++ nodes').length * grown.baseSize = _
      rw [hlength]
      exact hgrown.nodes_bytes
    · change s.position + buf.length ≤ ite _ _ _
      rw [hmax]
      exact le_max_right _ _
    · change ite _ _ _ ≤ s.capacity + extra
      have hsize := h.size_le
      rw [hmax]
      omega
    · have hcur := hgrown.cur_add hin' buf.length
      have hdiv := Nat.div_lt_of_lt_mul (Nat.mul_comm _ _ ▸ hfit)
      rw [Nat.min_eq_left (by omega), ← hlength] at hcur
      exact hcur
    · change (contents (grown.nodes.take grown.cur ++ nodes')).take grown.position = _
      rw [hall, take_overwrite_left buf hle]
      change (contents (s.nodes ++ fresh)).take s.position = _
      rw [contents_append, List.take_append_of_le_length (hlen ▸ hin.le)]
    · change ((contents (grown.nodes.take grown.cur ++ nodes')).drop grown.position).take _ = _
      rw [hall, drop_overwrite buf hle]

/-- At the end of the last node `write` starts in that node, one in front of the one that the
cursor is in. -/
theorem write_at_end (h : Held s) (hend : s.position = s.nodes.length * s.baseSize)
    (buf : List UInt8) :
    (s.addFreeCapacityTo buf.length).cur + 1 = s.position / s.baseSize := by
  obtain ⟨fresh, extra, heq, -, -, -⟩ :=
    addFreeCapacityTo_grows h.base_pos (h.position_le.trans h.size_le) buf.length
  rw [heq]
  exact h.cur_at_end hend

/-- `read` starts in the node of the cursor. -/
theorem read_held (h : Held s) {n : Nat} (hn : n ≤ s.getEnableReadSize) :
    (0 < n → s.cur = s.position / s.baseSize) ∧
      ∃ bs s', read n s = (.ok bs, s') ∧ Held s' := by
  have hpos := h.position_le
  have hsize := h.size_le
  have hcap := h.capacity_le
  rw [getEnableReadSize] at hn
  unfold read
  rw [if_neg (by simp only [getEnableReadSize]; omega)]
  have hcur := h.cur_lt
  cases hnodes : s.nodes.drop s.cur with
  | nil =>
      have hlen := congrArg List.length hnodes
      rw [List.length_drop, List.length_nil] at hlen
      omega
  | cons node rest =>
      by_cases hzero : n = 0
      · subst hzero
        exact ⟨fun hlt => absurd hlt (lt_irrefl 0), [], s, by simp, h⟩
      · have hin : s.position < s.nodes.length * s.baseSize := by omega
        have hfit := h.drop_bytes hin
        have hloop := readLoop_le (fun n hn => h.node_size n (List.mem_of_mem_drop hn))
          (hnodes ▸ List.cons_ne_nil node rest) (Nat.mod_lt _ h.base_pos)
          (show s.position % s.baseSize + n ≤ (s.nodes.drop s.cur).length * s.baseSize by omega)
        rw [hnodes] at hloop
        simp only [if_neg hzero, hloop]
        refine ⟨fun _ => h.cur_inside hin, _, _, rfl, ?_⟩
        refine ⟨h.base_pos, h.nonempty, h.node_size, h.nodes_bytes, ?_, hsize, ?_⟩
        · change s.position + n ≤ s.size
          omega
        · rw [← hnodes]
          exact h.cur_add hin n

/-- `set_position` keeps the invariant. -/
theorem setPosition_held (h : Held s) (v : Nat) : Held (setPosition v s).2 := by
  unfold setPosition
  split
  next => exact h
  next hv =>
    have hle : v ≤ s.nodes.length * s.baseSize := (Nat.le_of_not_lt hv).trans h.capacity_le
    have hsize := h.size_le
    simp only [seekLoop_le h.node_size h.base_pos h.nonempty hle]
    refine ⟨h.base_pos, h.nonempty, h.node_size, h.nodes_bytes, ?_, ?_, rfl⟩
    · change v ≤ ite _ _ _
      split <;> omega
    · change ite _ _ _ ≤ s.capacity
      split <;> omega

end Specs

/-! ## Runs -/

/-- What is asked of a call: a write of some bytes starts in the node of the cursor, stores them
at the cursor and leaves the bytes in front of it alone; a read of some bytes that does not
throw starts in the node of the cursor. -/
def Lands (s : ByteArray) : Call → Prop
  | .cmd (.write buf) =>
      buf = [] ∨ (s.addFreeCapacityTo buf.length).cur = s.position / s.baseSize ∧
        ∃ s', write buf s = (.ok (), s') ∧
          (contents s'.nodes).take s.position = (contents s.nodes).take s.position ∧
          ((contents s'.nodes).drop s.position).take buf.length = buf
  | .cmd (.read n) => 0 < n → n ≤ s.getEnableReadSize → s.cur = s.position / s.baseSize
  | _ => True

/-- Bytes are not written at the end of the last node. -/
def InNodes (s : ByteArray) : Call → Prop
  | .cmd (.write buf) => buf = [] ∨ s.position < s.nodes.length * s.baseSize
  | _ => True

/-- A call lands where it should exactly if it stays inside the blocks. -/
theorem lands_iff_inNodes {s : ByteArray} (h : Held s) (c : Call) : s.Lands c ↔ s.InNodes c := by
  cases c with
  | clear junk => exact Iff.rfl
  | cmd c =>
      cases c with
      | setPosition v => exact Iff.rfl
      | read n =>
          refine iff_of_true ?_ trivial
          intro hpos hn
          exact (read_held h hn).1 hpos
      | write buf =>
          apply or_congr_right
          constructor
          · rintro ⟨hcur, -⟩
            apply Nat.lt_of_le_of_ne h.position_le_nodes
            intro hend
            have hbehind := write_at_end h hend buf
            omega
          · intro hin
            rcases write_inside h hin buf with ⟨hcur, s', hrun, -, htake, hdrop⟩
            exact ⟨hcur, s', hrun, htake, hdrop⟩

/-- A call that stays inside the blocks keeps them held. -/
theorem next_held {s : ByteArray} (h : Held s) {c : Call} (hc : s.InNodes c) :
    Held (s.next c) := by
  cases c with
  | clear junk => exact h.clear junk
  | cmd c =>
      cases c with
      | write buf =>
          change Held (step s (.write buf)).2
          rcases hc with rfl | hin
          · exact h
          · rcases write_inside h hin buf with ⟨-, s', hrun, hheld, -, -⟩
            simp only [step, hrun]
            exact hheld
      | read n =>
          change Held (step s (.read n)).2
          by_cases hn : n ≤ s.getEnableReadSize
          · rcases read_held h hn with ⟨-, bs, s', hrun, hheld⟩
            simp only [step, hrun]
            exact hheld
          · simp only [step, read_throws (Nat.lt_of_not_le hn)]
            exact h
      | setPosition v =>
          change Held (step s (.setPosition v)).2
          rw [step_setPosition_snd]
          exact setPosition_held h v

/-- In every run of `write`, `read`, `set_position` and `clear` from a new object, all calls
start in the node of the cursor and store their bytes there exactly if no bytes are written at
the end of the last node. -/
theorem lands_iff (junk : Nat → Nat → UInt8) {baseSize : Nat} (hbase : 1 ≤ baseSize)
    (cs : List Call) :
    Lib.AllMeets next Lands (new junk baseSize) cs ↔
      Lib.AllMeets next InNodes (new junk baseSize) cs :=
  Lib.allMeets_congr Held (fun _ c h => lands_iff_inNodes h c) (fun _ _ h hc => next_held h hc) cs
    (held_new junk hbase)

/-- Two nodes are filled, the object is cleared and filled again. -/
theorem lands_iff_three :
    Lib.AllMeets next Lands (new (fun _ _ => 0) 3)
      [.cmd (.write [1, 2, 3, 4]), .clear fun _ _ => 0, .cmd (.write [5, 6, 7]), .cmd (.read 0)] :=
  (lands_iff (fun _ _ => 0) (by decide)
    [.cmd (.write [1, 2, 3, 4]), .clear fun _ _ => 0, .cmd (.write [5, 6, 7]), .cmd (.read 0)]).mpr
    ⟨.inr (by decide), trivial, .inr (by decide), trivial, trivial⟩

/-- A node is filled, the object is cleared, and the cursor is set to the end of the node. -/
def atEndCalls : List Call :=
  [.cmd (.write [1, 2]), .clear fun _ _ => 0, .cmd (.setPosition 2)]

/-- A byte that is written there is stored at position 0. -/
theorem lands_fails :
    (atEndCalls.foldl next (new (fun _ _ => 0) 2)).position = 2 ∧
      (contents (atEndCalls.foldl next (new (fun _ _ => 0) 2)).nodes).take 2 = [1, 2] ∧
      (contents ((atEndCalls ++ [Call.cmd (.write [9])]).foldl next
        (new (fun _ _ => 0) 2)).nodes).take 3 = [9, 2, 0] ∧
      ¬Lib.AllMeets next Lands (new (fun _ _ => 0) 2) (atEndCalls ++ [.cmd (.write [9])]) := by
  refine ⟨by decide, by decide, by decide, ?_⟩
  rintro ⟨-, -, -, hwrite | ⟨hcur, -⟩, -⟩
  · cases hwrite
  · exact absurd hcur (by decide)

end ByteArray
end Tiger
