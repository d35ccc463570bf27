import Mathlib.Tactic
import Tiger.Lib.Simulation
import Tiger.ByteArray.Model

/-!
# ByteArray - refinement of a flat byte vector

The purpose of a `ByteArray` is a byte vector with a cursor.  `Flat` is that
abstract object, and `Flat.Step` says what the three storage operations may do
to it.  The linked-node implementation is shown to simulate it along every run.

Main results:

- Theorems `write_spec`, `read_spec`, `read_throws`, `setPosition_spec` and
  `setPosition_throws`: one specification for each storage operation.
- Theorem `step_refines`: every command keeps the invariant and is a step of
  the flat vector.
- Theorem `run_refines_flat`: the same for every finite run from a fresh
  object.
-/

namespace Tiger
namespace ByteArray

/-! ## The flat vector -/

/-- Put `src` over the bytes of `bytes` from offset `off` on, extending the
vector when `src` reaches past its end. -/
def overwrite (bytes : List UInt8) (off : Nat) (src : List UInt8) : List UInt8 :=
  bytes.take off ++ src ++ bytes.drop (off + src.length)

/-- A byte vector with a cursor.  `limit` bounds where the cursor may be set. -/
structure Flat where
  bytes : List UInt8
  cursor : Nat
  limit : Nat

/-- The storage commands. -/
inductive Cmd
  | write (buf : List UInt8)
  | read (size : Nat)
  | setPosition (v : Nat)

/-- What the caller of a command sees. -/
inductive Outcome
  | done
  | bytes (bs : List UInt8)
  | failed (e : Failure)
deriving DecidableEq

/-- The commands on the flat vector.  Writing may raise the limit; moving the
cursor past the end extends the vector by unspecified bytes. -/
inductive Flat.Step : Flat → Cmd → Outcome → Flat → Prop
  | write (f : Flat) (buf : List UInt8) (limit : Nat) (hlimit : f.limit ≤ limit) :
      Step f (.write buf) .done
        ⟨overwrite f.bytes f.cursor buf, f.cursor + buf.length, limit⟩
  | read (f : Flat) (n : Nat) (hn : n ≤ f.bytes.length - f.cursor) :
      Step f (.read n) (.bytes ((f.bytes.drop f.cursor).take n))
        ⟨f.bytes, f.cursor + n, f.limit⟩
  | readThrows (f : Flat) (n : Nat) (hn : f.bytes.length - f.cursor < n) :
      Step f (.read n) (.failed (.outOfRange "[read out of range]")) f
  | setPosition (f : Flat) (v : Nat) (extra : List UInt8) (hv : v ≤ f.limit)
      (hextra : extra.length = v - f.bytes.length) :
      Step f (.setPosition v) .done ⟨f.bytes ++ extra, v, f.limit⟩
  | setPositionThrows (f : Flat) (v : Nat) (hv : f.limit < v) :
      Step f (.setPosition v) (.failed (.outOfRange "[set position out of range]")) f

/-- Overwriting at the end appends. -/
theorem overwrite_at_end (bytes src : List UInt8) :
    overwrite bytes bytes.length src = bytes ++ src := by
  simp [overwrite]

/-- An overwrite inside the second of two segments leaves the first alone. -/
theorem overwrite_append_right (left right src : List UInt8) (off : Nat) :
    overwrite (left ++ right) (left.length + off) src =
      left ++ overwrite right off src := by
  unfold overwrite
  rw [List.take_length_add_append, Nat.add_assoc, List.drop_length_add_append]
  simp

/-- An overwrite inside the first of two segments leaves the second alone. -/
theorem overwrite_append_left {left src : List UInt8} {off : Nat} (right : List UInt8)
    (hfit : off + src.length ≤ left.length) :
    overwrite (left ++ right) off src = overwrite left off src ++ right := by
  unfold overwrite
  rw [List.take_append_of_le_length (by omega), List.drop_append_of_le_length (by omega)]
  simp

/-- Overwriting with nothing. -/
theorem overwrite_nil (bytes : List UInt8) (off : Nat) : overwrite bytes off [] = bytes := by
  simp [overwrite]

/-- Two overwrites, the second right behind the first. -/
theorem overwrite_overwrite {bytes : List UInt8} {off : Nat} (first second : List UInt8)
    (hoff : off ≤ bytes.length) :
    overwrite (overwrite bytes off first) (off + first.length) second =
      overwrite bytes off (first ++ second) := by
  have hhead : (bytes.take off ++ first).length = off + first.length := by
    rw [List.length_append, List.length_take, Nat.min_eq_left hoff]
  unfold overwrite
  rw [← hhead, List.take_left, List.drop_length_add_append, List.drop_drop, hhead,
    List.length_append]
  simp only [List.append_assoc, Nat.add_assoc]

/-- Cutting the vector commutes with an overwrite that starts before the cut. -/
theorem take_overwrite (bytes src : List UInt8) {off n : Nat}
    (hoff : off ≤ n) (hfit : off + src.length ≤ bytes.length) :
    (overwrite bytes off src).take (max n (off + src.length)) =
      overwrite (bytes.take n) off src := by
  unfold overwrite
  have hhead : (bytes.take off ++ src).length = off + src.length := by
    rw [List.length_append, List.length_take, Nat.min_eq_left (by omega)]
  have hmax : max n (off + src.length) =
      (bytes.take off ++ src).length + (n - (off + src.length)) := by
    omega
  rw [hmax, List.take_length_add_append, List.take_take, Nat.min_eq_left hoff,
    List.drop_take]

/-- An overwrite leaves the bytes in front of it alone. -/
theorem take_overwrite_left {bytes : List UInt8} (src : List UInt8) {off : Nat}
    (hoff : off ≤ bytes.length) : (overwrite bytes off src).take off = bytes.take off := by
  have hlen : (bytes.take off).length = off := by
    rw [List.length_take, Nat.min_eq_left hoff]
  rw [overwrite, List.append_assoc, List.take_append_of_le_length hlen.ge, List.take_take,
    Nat.min_self]

/-- An overwrite puts its bytes where it starts. -/
theorem drop_overwrite {bytes : List UInt8} (src : List UInt8) {off : Nat}
    (hoff : off ≤ bytes.length) : ((overwrite bytes off src).drop off).take src.length = src := by
  have hlen : (bytes.take off).length = off := by
    rw [List.length_take, Nat.min_eq_left hoff]
  rw [overwrite, List.append_assoc, List.drop_append_of_le_length hlen.ge,
    List.drop_eq_nil_of_le hlen.le, List.nil_append, List.take_left]

/-! ## The representation invariant -/

/-- The bytes of all nodes in link order. -/
def contents (nodes : List Node) : List UInt8 := nodes.flatMap Node.ptr

/-- What holds between calls: equally sized nodes, one more of them than
`m_capacity` accounts for, ordered counters, and the cached cursor node. -/
structure Inv (s : ByteArray) : Prop where
  base_pos : 0 < s.baseSize
  node_size : ∀ node ∈ s.nodes, node.size = s.baseSize
  nodes_bytes : s.nodes.length * s.baseSize = s.capacity + s.baseSize
  position_le : s.position ≤ s.size
  size_le : s.size ≤ s.capacity
  cur_eq : s.cur = s.position / s.baseSize

/-- The flat vector a `ByteArray` stands for. -/
def flat (s : ByteArray) : Flat where
  bytes := (contents s.nodes).take s.size
  cursor := s.position
  limit := s.capacity

theorem contents_append (xs ys : List Node) :
    contents (xs ++ ys) = contents xs ++ contents ys := by
  simp [contents]

theorem contents_length {nodes : List Node} {base : Nat}
    (hsize : ∀ node ∈ nodes, node.size = base) :
    (contents nodes).length = nodes.length * base := by
  induction nodes with
  | nil => simp [contents]
  | cons node rest ih =>
      have hhead : node.ptr.length = base := by
        rw [node.ptr_length, hsize node List.mem_cons_self]
      have hrest := ih fun n hn => hsize n (List.mem_cons_of_mem _ hn)
      change (node.ptr ++ contents rest).length = _
      rw [List.length_append, hhead, hrest, List.length_cons, Nat.succ_mul, Nat.add_comm]

namespace Inv

variable {s : ByteArray}

theorem contents_length (h : Inv s) :
    (contents s.nodes).length = s.capacity + s.baseSize := by
  rw [ByteArray.contents_length h.node_size, h.nodes_bytes]

/-- The flat vector has exactly `m_size` bytes. -/
theorem flat_length (h : Inv s) : (flat s).bytes.length = s.size := by
  have hle := h.size_le
  simp only [flat, List.length_take, h.contents_length]
  omega

/-- The cursor node exists. -/
theorem cur_lt (h : Inv s) : s.cur < s.nodes.length := by
  rw [h.cur_eq, Nat.div_lt_iff_lt_mul h.base_pos, h.nodes_bytes]
  have hpos := h.position_le
  have hle := h.size_le
  have hbase := h.base_pos
  omega

/-- The cursor is its node's start plus its offset in the node. -/
theorem position_eq (h : Inv s) :
    s.cur * s.baseSize + s.position % s.baseSize = s.position := by
  rw [h.cur_eq, Nat.mul_comm]
  exact Nat.div_add_mod _ _

/-- The nodes before the cursor node hold the bytes before its start. -/
theorem take_cur_length (h : Inv s) :
    (contents (s.nodes.take s.cur)).length = s.cur * s.baseSize := by
  rw [ByteArray.contents_length fun n hn => h.node_size n (List.mem_of_mem_take hn),
    List.length_take, Nat.min_eq_left h.cur_lt.le]

/-- A count of bytes that fits before `m_capacity` stays inside the nodes from
the cursor node on. -/
theorem fits (h : Inv s) {n : Nat} (hn : s.position + n ≤ s.capacity) :
    s.position % s.baseSize + n < (s.nodes.drop s.cur).length * s.baseSize := by
  have hpos := h.position_eq
  have hbytes := h.nodes_bytes
  have hbase := h.base_pos
  rw [List.length_drop, Nat.sub_mul]
  omega

/-- Moving `n` bytes on moves the cursor node by whole nodes. -/
theorem cur_add (h : Inv s) (n : Nat) :
    s.cur + (s.position % s.baseSize + n) / s.baseSize =
      (s.position + n) / s.baseSize := by
  conv_rhs => rw [← h.position_eq]
  rw [Nat.add_assoc, Nat.add_comm (s.cur * s.baseSize),
    Nat.add_mul_div_right _ _ h.base_pos, Nat.add_comm]

end Inv

/-! ## The node loops -/

section Loops

variable {base : Nat}

/-- In a chain of blocks of one size, so is the first one and the rest. -/
private theorem node_rest {node : Node} {rest : List Node}
    (hsize : ∀ n ∈ node :: rest, n.size = base) :
    node.size = base ∧ node.ptr.length = base ∧ ∀ n ∈ rest, n.size = base := by
  have hhead := hsize node List.mem_cons_self
  exact ⟨hhead, by rw [node.ptr_length, hhead], fun n hn => hsize n (List.mem_cons_of_mem _ hn)⟩

/-- Filling a node up and going on moves the quotient by one. -/
private theorem div_of_past_node {base npos n : Nat} (hnpos : npos < base)
    (hpast : base - npos < n) :
    (npos + n) / base = (0 + (n - (base - npos))) / base + 1 := by
  have hsplit : npos + n = 0 + (n - (base - npos)) + base := by omega
  rw [hsplit, Nat.add_div_right _ (by omega)]

/-- A last partial step inside a node advances exactly when it reaches the end. -/
private theorem advance_eq_div {base npos n : Nat} (rest : List Node)
    (hnpos : npos < base) (hin : n ≤ base - npos)
    (hfits : npos + n < (rest.length + 1) * base) :
    (if base = npos + n ∧ rest ≠ [] then 1 else 0) = (npos + n) / base := by
  by_cases hend : base = npos + n
  · have hrest : rest ≠ [] := by
      intro hnil
      simp only [hnil, List.length_nil] at hfits
      omega
    rw [if_pos ⟨hend, hrest⟩, ← hend, Nat.div_self (by omega)]
  · rw [if_neg (fun h => hend h.1), Nat.div_eq_of_lt (by omega)]

/-- A copy into a node overwrites its bytes. -/
theorem store_ok (node : Node) (off : Nat) (src : List UInt8)
    (hfit : off + src.length ≤ node.size) :
    ∃ node', node.store off src = .ok node' ∧ node'.size = node.size ∧
      node'.ptr = overwrite node.ptr off src := by
  unfold Node.store
  rw [dif_pos hfit]
  exact ⟨_, rfl, rfl, rfl⟩

/-- The write loop overwrites the bytes of its nodes and never meets a null
node as long as one byte of room is left behind the data. -/
theorem writeLoop_spec {nodes : List Node} {npos : Nat} {buf : List UInt8}
    (hsize : ∀ n ∈ nodes, n.size = base) (hnpos : npos < base)
    (hfits : npos + buf.length < nodes.length * base) :
    ∃ nodes', writeLoop npos buf nodes = .ok (nodes', (npos + buf.length) / base) ∧
      contents nodes' = overwrite (contents nodes) npos buf ∧
      nodes'.length = nodes.length ∧ ∀ n ∈ nodes', n.size = base := by
  induction nodes generalizing npos buf with
  | nil => simp at hfits
  | cons node rest ih =>
      obtain ⟨hhead, hptr, hrest⟩ := node_rest hsize
      unfold writeLoop
      simp only [hhead]
      by_cases hin : buf.length ≤ base - npos
      · -- the rest of the data fits into this node
        obtain ⟨node', hstore, hsize', hptr'⟩ :=
          store_ok node npos buf (by omega)
        have hadv := advance_eq_div rest hnpos hin (by simpa using hfits)
        rw [if_pos hin, hstore]
        refine ⟨node' :: rest, ?_, ?_, by simp, ?_⟩
        · simp only [bind, Except.bind, pure, Except.pure, hadv]
        · change node'.ptr ++ contents rest = overwrite (node.ptr ++ contents rest) npos buf
          rw [hptr', overwrite_append_left _ (by omega)]
        · intro n hn
          rcases List.mem_cons.mp hn with rfl | hn
          · rw [hsize', hhead]
          · exact hrest n hn
      · -- fill this node and go on with the next one
        have hfill : (buf.take (base - npos)).length = base - npos := by
          rw [List.length_take]
          omega
        obtain ⟨node', hstore, hsize', hptr'⟩ :=
          store_ok node npos (buf.take (base - npos)) (by omega)
        have hfits' : 0 + (buf.drop (base - npos)).length < rest.length * base := by
          rw [List.length_cons, Nat.succ_mul] at hfits
          rw [List.length_drop]
          omega
        obtain ⟨rest', hloop, hcontents, hlen, hsizes⟩ := ih hrest (by omega) hfits'
        have hdiv := div_of_past_node hnpos (Nat.lt_of_not_le hin)
        rw [if_neg hin, hstore]
        refine ⟨node' :: rest', ?_, ?_, by simp [hlen], ?_⟩
        · simp only [bind, Except.bind, pure, Except.pure, hloop, List.length_drop, ← hdiv]
        · change node'.ptr ++ contents rest' = overwrite (node.ptr ++ contents rest) npos buf
          rw [hptr', hcontents]
          unfold overwrite
          have hcut : npos + buf.length = node.ptr.length + (buf.length - (base - npos)) := by
            omega
          rw [hcut, List.drop_length_add_append, List.take_append_of_le_length (by omega),
            hfill, List.drop_eq_nil_of_le (show node.ptr.length ≤ npos + (base - npos) by omega),
            List.take_zero, Nat.zero_add, List.length_drop]
          simp only [List.append_nil, List.nil_append, List.append_assoc]
          rw [← List.append_assoc (buf.take _) (buf.drop _), List.take_append_drop]
        · intro n hn
          rcases List.mem_cons.mp hn with rfl | hn
          · rw [hsize', hhead]
          · exact hsizes n hn

/-- The read loop returns the bytes of its nodes. -/
theorem readLoop_spec {nodes : List Node} {npos size : Nat}
    (hsize : ∀ n ∈ nodes, n.size = base) (hnpos : npos < base)
    (hfits : npos + size < nodes.length * base) :
    readLoop npos size nodes =
      .ok (((contents nodes).drop npos).take size, (npos + size) / base) := by
  induction nodes generalizing npos size with
  | nil => simp at hfits
  | cons node rest ih =>
      obtain ⟨hhead, hptr, hrest⟩ := node_rest hsize
      unfold readLoop
      simp only [hhead]
      have hcons : contents (node :: rest) = node.ptr ++ contents rest := rfl
      rw [hcons, List.drop_append_of_le_length (by omega)]
      by_cases hin : size ≤ base - npos
      · have hadv := advance_eq_div rest hnpos hin (by simpa using hfits)
        rw [if_pos hin, Node.load, if_pos (by omega),
          List.take_append_of_le_length (by rw [List.length_drop]; omega)]
        simp only [bind, Except.bind, pure, Except.pure, hadv]
      · have hfits' : 0 + (size - (base - npos)) < rest.length * base := by
          rw [List.length_cons, Nat.succ_mul] at hfits
          omega
        have hdiv := div_of_past_node hnpos (Nat.lt_of_not_le hin)
        have hlen : (node.ptr.drop npos).length = base - npos := by
          rw [List.length_drop, hptr]
        rw [if_neg hin, Node.load, if_pos (by omega), ih hrest (by omega) hfits']
        simp only [bind, Except.bind, pure, Except.pure, ← hdiv, List.drop_zero]
        rw [List.take_append, hlen, List.take_of_length_le (l := node.ptr.drop npos) (by omega),
          List.take_of_length_le (l := node.ptr.drop npos) (by omega)]

/-- The search finds the node that contains the offset. -/
theorem seekLoop_spec {nodes : List Node} {v : Nat}
    (hsize : ∀ n ∈ nodes, n.size = base) (hbase : 0 < base)
    (hfits : v < nodes.length * base) :
    seekLoop v nodes = .ok (v / base) := by
  induction nodes generalizing v with
  | nil => simp at hfits
  | cons node rest ih =>
      obtain ⟨hhead, _, hrest⟩ := node_rest hsize
      unfold seekLoop
      rw [hhead]
      rw [List.length_cons, Nat.succ_mul] at hfits
      by_cases hpast : v > base
      · have hdiv : v / base = (v - base) / base + 1 := by
          rw [← Nat.add_div_right _ hbase, Nat.sub_add_cancel hpast.le]
        rw [if_pos hpast, ih hrest (by omega), hdiv]
        rfl
      · rw [if_neg hpast]
        by_cases hend : v = base
        · have hne : rest ≠ [] := by
            intro hnil
            simp only [hnil, List.length_nil] at hfits
            omega
          rw [if_pos ⟨hend, hne⟩, hend, Nat.div_self hbase]
          rfl
        · rw [if_neg (fun h => hend h.1), Nat.div_eq_of_lt (by omega)]
          rfl

/-- A composition does not fail with an error that none of its parts has. -/
theorem bind_ne_error {α β : Type} {x : Except Failure α} {f : α → Except Failure β} {e : Failure}
    (hx : x ≠ .error e) (hf : ∀ a, f a ≠ .error e) : (x >>= f) ≠ .error e := by
  cases x with
  | error e' =>
      intro heq
      cases heq
      exact hx rfl
  | ok a => exact hf a

/-- Loading from a block throws no `std::out_of_range` itself. -/
theorem load_not_outOfRange (node : Node) (off n : Nat) (what : String) :
    node.load off n ≠ .error (.outOfRange what) := by
  unfold Node.load
  split <;> simp

/-- The loop that reads throws no `std::out_of_range` itself. -/
theorem readLoop_not_outOfRange (npos size : Nat) (nodes : List Node) (what : String) :
    readLoop npos size nodes ≠ .error (.outOfRange what) := by
  induction nodes generalizing npos size with
  | nil => simp [readLoop]
  | cons node rest ih =>
      unfold readLoop
      dsimp only
      split
      next =>
        apply bind_ne_error (load_not_outOfRange _ _ _ _)
        intro bytes heq
        cases heq
      next =>
        apply bind_ne_error (load_not_outOfRange _ _ _ _)
        intro bytes
        apply bind_ne_error (ih _ _)
        intro r heq
        cases heq

end Loops

/-! ## Specifications of the operations -/

section Specs

variable {s : ByteArray}

/-- The allocation loop adds nodes and capacity and touches nothing else. -/
theorem appendNodes_spec (s : ByteArray) (cnt : Nat) :
    ∃ fresh : List Node, fresh.length = cnt ∧
      (∀ node ∈ fresh, node.size = s.baseSize) ∧
      appendNodes s cnt =
        { s with nodes := s.nodes ++ fresh, capacity := s.capacity + cnt * s.baseSize } := by
  induction cnt generalizing s with
  | zero => exact ⟨[], rfl, by simp, by simp [appendNodes]⟩
  | succ cnt ih =>
      obtain ⟨fresh, hlen, hsize, heq⟩ := ih
        { s with
          nodes := s.nodes ++ [Node.new (s.junk s.nodes.length) s.baseSize]
          capacity := s.capacity + s.baseSize }
      refine ⟨Node.new (s.junk s.nodes.length) s.baseSize :: fresh, by simp [hlen], ?_, ?_⟩
      · intro node hnode
        rcases List.mem_cons.mp hnode with rfl | hnode
        · rfl
        · exact hsize node hnode
      · rw [appendNodes, heq]
        have hcap : s.capacity + s.baseSize + cnt * s.baseSize =
            s.capacity + (cnt + 1) * s.baseSize := by
          rw [Nat.succ_mul]
          omega
        simp [hcap]

/-- `add_free_capacity_to` appends nodes until there is room for `size` bytes and one more. -/
theorem addFreeCapacityTo_grows (hbase : 0 < s.baseSize) (hpos : s.position ≤ s.capacity)
    (size : Nat) :
    ∃ fresh : List Node, ∃ extra : Nat,
      s.addFreeCapacityTo size =
        { s with nodes := s.nodes ++ fresh, capacity := s.capacity + extra } ∧
      (∀ node ∈ fresh, node.size = s.baseSize) ∧ fresh.length * s.baseSize = extra ∧
      s.position + size < s.capacity + extra := by
  unfold addFreeCapacityTo
  by_cases hfree : s.getFreeCapacity > size
  · simp only [if_pos hfree]
    refine ⟨[], 0, by simp, by simp, by simp, ?_⟩
    unfold getFreeCapacity at hfree
    omega
  · simp only [if_neg hfree, gt_iff_lt, lt_self_iff_false, and_false, if_false]
    set cnt := (size - s.getFreeCapacity + s.baseSize - 1) / s.baseSize + 1 with hcnt
    obtain ⟨fresh, hlen, hfresh, heq⟩ := appendNodes_spec s cnt
    rw [heq]
    refine ⟨fresh, cnt * s.baseSize, rfl, hfresh, by rw [hlen], ?_⟩
    -- `cnt` nodes hold the missing bytes rounded up, and one node more
    have hround := Nat.lt_mul_div_succ
      (size - s.getFreeCapacity + s.baseSize - 1) hbase
    have hmul : cnt * s.baseSize = s.baseSize *
        ((size - s.getFreeCapacity + s.baseSize - 1) / s.baseSize + 1) := by
      rw [hcnt, Nat.mul_comm]
    unfold getFreeCapacity at *
    omega

/-- `add_free_capacity_to` keeps the invariant and the flat vector and leaves
room for `size` bytes and one more. -/
theorem addFreeCapacityTo_spec (h : Inv s) (size : Nat) :
    ∃ fresh : List Node, ∃ extra : Nat,
      s.addFreeCapacityTo size =
        { s with nodes := s.nodes ++ fresh, capacity := s.capacity + extra } ∧
      Inv (s.addFreeCapacityTo size) ∧
      s.position + size < s.capacity + extra := by
  obtain ⟨fresh, extra, heq, hfresh, hextra, hroom⟩ :=
    addFreeCapacityTo_grows h.base_pos (h.position_le.trans h.size_le) size
  refine ⟨fresh, extra, heq, ?_, hroom⟩
  rw [heq]
  refine ⟨h.base_pos, ?_, ?_, h.position_le, h.size_le.trans (Nat.le_add_right _ _), h.cur_eq⟩
  · intro node hnode
    rcases List.mem_append.mp hnode with hnode | hnode
    · exact h.node_size node hnode
    · exact hfresh node hnode
  · have hbytes := h.nodes_bytes
    simp only [List.length_append, Nat.add_mul]
    omega

/-- An overwrite of the nodes at the cursor is one of the flat vector. -/
theorem flat_overwrite (h : Inv s) {fresh nodes : List Node} {buf : List UInt8}
    (hfit : s.position + buf.length ≤ (contents (s.nodes ++ fresh)).length)
    (hnodes : contents nodes = overwrite (contents (s.nodes ++ fresh)) s.position buf) :
    (contents nodes).take (max s.size (s.position + buf.length)) =
      overwrite (flat s).bytes s.position buf := by
  have hle : s.size ≤ (contents s.nodes).length := by
    have hsize := h.size_le
    rw [h.contents_length]
    omega
  rw [hnodes, take_overwrite _ _ h.position_le hfit, contents_append,
    List.take_append_of_le_length hle]
  rfl

/-- Other nodes from the cursor node on, as many as there were. -/
theorem spliced_length {nodes nodes' : List Node} {cur : Nat}
    (hlen : nodes'.length = (nodes.drop cur).length) :
    (nodes.take cur ++ nodes').length = nodes.length := by
  rw [List.length_append, hlen, ← List.length_append, List.take_append_drop]

/-- Replacing the blocks from one on keeps the block size. -/
theorem spliced_sizes {nodes nodes' : List Node} {cur base : Nat}
    (hsize : ∀ node ∈ nodes, node.size = base) (hsize' : ∀ node ∈ nodes', node.size = base) :
    ∀ node ∈ nodes.take cur ++ nodes', node.size = base := by
  intro node hnode
  rcases List.mem_append.mp hnode with hnode | hnode
  · exact hsize node (List.mem_of_mem_take hnode)
  · exact hsize' node hnode

/-- `write` overwrites the flat vector at the cursor and advances it. -/
theorem write_spec (h : Inv s) (buf : List UInt8) :
    ∃ s', write buf s = (.ok (), s') ∧ Inv s' ∧ s.capacity ≤ s'.capacity ∧
      s'.endian = s.endian ∧ s'.position = s.position + buf.length ∧
      (flat s').bytes = overwrite (flat s).bytes s.position buf := by
  unfold write
  by_cases hempty : buf.length = 0
  · have hnil := List.length_eq_zero_iff.mp hempty
    refine ⟨s, by rw [if_pos hempty], h, le_rfl, rfl, by simp [hnil], ?_⟩
    simp [hnil, overwrite]
  · obtain ⟨fresh, extra, heq, hinv, hroom⟩ := addFreeCapacityTo_spec h buf.length
    rw [heq] at hinv
    simp only [if_neg hempty, heq]
    set grown : ByteArray :=
      { s with nodes := s.nodes ++ fresh, capacity := s.capacity + extra } with hgrown
    have hnpos : grown.position % grown.baseSize < grown.baseSize :=
      Nat.mod_lt _ hinv.base_pos
    obtain ⟨nodes', hloop, hcontents, hlen, hsizes⟩ := writeLoop_spec
      (fun n hn => hinv.node_size n (List.mem_of_mem_drop hn)) hnpos
      (hinv.fits (show grown.position + buf.length ≤ grown.capacity from hroom.le))
    have hloop' : writeLoop (s.position % s.baseSize) buf
        (List.drop s.cur (s.nodes ++ fresh)) =
        .ok (nodes', (s.position % s.baseSize + buf.length) / s.baseSize) := hloop
    rw [hloop']
    have hpos := h.position_le
    have hsize := h.size_le
    have hmax : (if s.position + buf.length > s.size then s.position + buf.length
        else s.size) = max s.size (s.position + buf.length) := by
      split <;> omega
    -- the bytes of all nodes after the copy
    have hall : contents (grown.nodes.take grown.cur ++ nodes') =
        overwrite (contents grown.nodes) grown.position buf := by
      rw [contents_append, hcontents, ← overwrite_append_right, hinv.take_cur_length,
        hinv.position_eq, ← contents_append, List.take_append_drop]
    refine ⟨_, rfl, ?_, Nat.le_add_right _ _, rfl, rfl, ?_⟩
    · refine ⟨h.base_pos, ?_, ?_, ?_, ?_, ?_⟩
      · exact spliced_sizes hinv.node_size hsizes
      · change (grown.nodes.take grown.cur ++ nodes').length * grown.baseSize = _
        rw [spliced_length hlen, hinv.nodes_bytes]
      · change s.position + buf.length ≤ ite _ _ _
        rw [hmax]
        exact le_max_right _ _
      · change ite _ _ _ ≤ s.capacity + extra
        rw [hmax]
        omega
      · exact hinv.cur_add buf.length
    · have hfit : s.position + buf.length ≤ (contents grown.nodes).length := by
        rw [hinv.contents_length]
        change _ ≤ s.capacity + extra + s.baseSize
        omega
      simp only [flat, hmax]
      exact flat_overwrite h hfit hall

/-- `read` returns the bytes at the cursor and advances it. -/
theorem read_spec (h : Inv s) {n : Nat} (hn : n ≤ s.size - s.position) :
    ∃ s', read n s = (.ok (((flat s).bytes.drop s.position).take n), s') ∧ Inv s' ∧
      s'.capacity = s.capacity ∧ s'.endian = s.endian ∧ s'.position = s.position + n ∧
      s'.size = s.size ∧ (flat s').bytes = (flat s).bytes := by
  have hpos := h.position_le
  have hsize := h.size_le
  have hbytes : ((flat s).bytes.drop s.position).take n =
      ((contents (s.nodes.drop s.cur)).drop (s.position % s.baseSize)).take n := by
    have hsplit : contents s.nodes =
        contents (s.nodes.take s.cur) ++ contents (s.nodes.drop s.cur) := by
      rw [← contents_append, List.take_append_drop]
    have hoff : s.position =
        (contents (s.nodes.take s.cur)).length + s.position % s.baseSize := by
      rw [h.take_cur_length, h.position_eq]
    simp only [flat]
    rw [List.drop_take, List.take_take, Nat.min_eq_left hn]
    conv_lhs => rw [hsplit, hoff, List.drop_length_add_append]
  unfold read
  rw [if_neg (by simp only [getEnableReadSize]; omega)]
  have hcur := h.cur_lt
  cases hnodes : s.nodes.drop s.cur with
  | nil =>
      have hlen := congrArg List.length hnodes
      rw [List.length_drop, List.length_nil] at hlen
      omega
  | cons node rest =>
      rw [hnodes] at hbytes
      by_cases hzero : n = 0
      · subst hzero
        exact ⟨s, by simp, h, rfl, rfl, rfl, rfl, rfl⟩
      · have hloop := readLoop_spec
          (fun n hn => h.node_size n (List.mem_of_mem_drop hn))
          (Nat.mod_lt _ h.base_pos) (h.fits (n := n) (by omega))
        rw [hnodes] at hloop
        simp only [if_neg hzero, hloop, hbytes]
        refine ⟨_, rfl, ⟨h.base_pos, h.node_size, h.nodes_bytes, ?_, hsize, h.cur_add n⟩,
          rfl, rfl, rfl, rfl, rfl⟩
        change s.position + n ≤ s.size
        omega

/-- `read` throws when fewer bytes are left, before it changes anything. -/
theorem read_throws {n : Nat} (hn : s.size - s.position < n) :
    read n s = (.error (.outOfRange "[read out of range]"), s) := by
  unfold read
  rw [if_pos (by simpa [getEnableReadSize] using hn)]

/-- `set_position` sets the cursor and its node, and raises the size to the cursor if needed. -/
theorem setPosition_eq (h : Inv s) {v : Nat} (hv : v ≤ s.capacity) :
    setPosition v s =
      (.ok (), { s with position := v, size := max s.size v, cur := v / s.baseSize }) := by
  have hmax : (if v > s.size then v else s.size) = max s.size v := by
    split <;> omega
  have hseek := seekLoop_spec h.node_size h.base_pos (v := v) (by
    have hbase := h.base_pos
    rw [h.nodes_bytes]
    omega)
  unfold setPosition
  rw [if_neg (by omega)]
  simp only [hseek, hmax]

/-- `set_position` moves the cursor and raises the size to it if needed. -/
theorem setPosition_spec (h : Inv s) {v : Nat} (hv : v ≤ s.capacity) :
    ∃ s' extra, setPosition v s = (.ok (), s') ∧ Inv s' ∧
      s'.capacity = s.capacity ∧ s'.endian = s.endian ∧ s'.position = v ∧
      s'.size = max s.size v ∧
      extra.length = v - s.size ∧ (flat s').bytes = (flat s).bytes ++ extra := by
  have hsize := h.size_le
  refine ⟨_, ((contents s.nodes).take (max s.size v)).drop s.size, setPosition_eq h hv,
    ⟨h.base_pos, h.node_size, h.nodes_bytes, le_max_right _ _, max_le hsize hv, rfl⟩,
    rfl, rfl, rfl, rfl, ?_, ?_⟩
  · rw [List.length_drop, List.length_take, h.contents_length]
    omega
  · have hcut : (contents s.nodes).take s.size =
        ((contents s.nodes).take (max s.size v)).take s.size := by
      rw [List.take_take, Nat.min_eq_left (le_max_left _ _)]
    simp only [flat]
    rw [hcut, List.take_append_drop]

/-- `set_position` throws past the capacity, before it changes anything. -/
theorem setPosition_throws {v : Nat} (hv : s.capacity < v) :
    setPosition v s = (.error (.outOfRange "[set position out of range]"), s) := by
  unfold setPosition
  rw [if_pos hv]

end Specs

/-! ## Refinement along runs -/

/-- Execute one command and show the caller its outcome. -/
def step (s : ByteArray) : Cmd → Outcome × ByteArray
  | .write buf =>
      match write buf s with
      | (.ok _, s') => (.done, s')
      | (.error e, s') => (.failed e, s')
  | .read n =>
      match read n s with
      | (.ok bs, s') => (.bytes bs, s')
      | (.error e, s') => (.failed e, s')
  | .setPosition v =>
      match setPosition v s with
      | (.ok _, s') => (.done, s')
      | (.error e, s') => (.failed e, s')

/-- The array behind a read command is the one behind `read`. -/
theorem step_read_snd (s : ByteArray) (n : Nat) : (step s (.read n)).2 = (read n s).2 := by
  rw [step]
  split
  next s' hrun => rw [hrun]
  next s' hrun => rw [hrun]

/-- The array behind a position command is the one behind `setPosition`. -/
theorem step_setPosition_snd (s : ByteArray) (v : Nat) :
    (step s (.setPosition v)).2 = (setPosition v s).2 := by
  rw [step]
  split
  next s' hrun => rw [hrun]
  next s' hrun => rw [hrun]

/-- A fresh object satisfies the invariant. -/
theorem inv_new (junk : Nat → Nat → UInt8) {baseSize : Nat} (hbase : 0 < baseSize) :
    Inv (new junk baseSize) where
  base_pos := hbase
  node_size := by
    intro node hnode
    rw [List.mem_singleton.mp hnode]
    rfl
  nodes_bytes := by simp [new]
  position_le := le_rfl
  size_le := le_rfl
  cur_eq := by simp [new]

/-- Every command is a step of the flat vector and keeps the invariant. -/
theorem step_refines {s : ByteArray} (h : Inv s) (c : Cmd) :
    Flat.Step (flat s) c (step s c).1 (flat (step s c).2) ∧ Inv (step s c).2 := by
  have hlen := h.flat_length
  cases c with
  | write buf =>
      obtain ⟨s', hrun, hinv, hcap, _, hpos, hbytes⟩ := write_spec h buf
      have hflat : flat s' =
          ⟨overwrite (flat s).bytes (flat s).cursor buf,
            (flat s).cursor + buf.length, s'.capacity⟩ := by
        rw [show (flat s).cursor = s.position from rfl, ← hbytes, ← hpos]
        rfl
      simp only [step, hrun]
      rw [hflat]
      exact ⟨Flat.Step.write (flat s) buf _ hcap, hinv⟩
  | read n =>
      by_cases hn : n ≤ s.size - s.position
      · obtain ⟨s', hrun, hinv, hcap, _, hpos, _, hbytes⟩ := read_spec h hn
        have hflat : flat s' = ⟨(flat s).bytes, (flat s).cursor + n, (flat s).limit⟩ := by
          rw [← hbytes, show (flat s).cursor = s.position from rfl, ← hpos,
            show (flat s).limit = s.capacity from rfl, ← hcap]
          rfl
        simp only [step, hrun]
        rw [hflat]
        exact ⟨Flat.Step.read (flat s) n (by rw [hlen]; exact hn), hinv⟩
      · have hn' : s.size - s.position < n := Nat.lt_of_not_le hn
        simp only [step, read_throws hn']
        exact ⟨Flat.Step.readThrows (flat s) n (by rw [hlen]; exact hn'), h⟩
  | setPosition v =>
      by_cases hv : v ≤ s.capacity
      · obtain ⟨s', extra, hrun, hinv, hcap, _, hpos, _, hextra, hbytes⟩ :=
          setPosition_spec h hv
        have hflat : flat s' = ⟨(flat s).bytes ++ extra, v, (flat s).limit⟩ := by
          rw [← hbytes, ← hpos, show (flat s).limit = s.capacity from rfl, ← hcap]
          rfl
        simp only [step, hrun]
        rw [hflat]
        exact ⟨Flat.Step.setPosition (flat s) v extra hv (by rw [hlen]; exact hextra), hinv⟩
      · have hv' : s.capacity < v := Nat.lt_of_not_le hv
        simp only [step, setPosition_throws hv']
        exact ⟨Flat.Step.setPositionThrows (flat s) v hv', h⟩

/-- No command runs into a null node or leaves a block. -/
theorem step_no_fault {s : ByteArray} (h : Inv s) (c : Cmd) :
    (step s c).1 ≠ .failed .nullNode ∧ (step s c).1 ≠ .failed .overrun := by
  have hstep := (step_refines h c).1
  generalize (step s c).1 = o at hstep
  generalize flat (step s c).2 = f at hstep
  cases hstep <;> simp

/-- **Refinement.**  From a fresh object every sequence of `write`, `read` and
`set_position` calls behaves as the flat vector does; the counters stay ordered,
the cursor node is the one that contains the cursor, and no loop meets a null
node. -/
theorem run_refines_flat (junk : Nat → Nat → UInt8) {baseSize : Nat}
    (hbase : 1 ≤ baseSize) (cs : List Cmd) :
    let r := Lib.run step (new junk baseSize) cs
    Lib.SpecRun Flat.Step ⟨[], 0, 0⟩ cs r.1 (flat r.2) ∧
      (r.2.position ≤ r.2.size ∧ r.2.size ≤ r.2.capacity ∧
        r.2.cur = r.2.position / r.2.baseSize ∧ r.2.cur < r.2.nodes.length) ∧
      ∀ o ∈ r.1, o ≠ .failed .nullNode ∧ o ≠ .failed .overrun := by
  intro r
  have hfresh : Inv (new junk baseSize) := inv_new junk hbase
  have hempty : flat (new junk baseSize) = ⟨[], 0, 0⟩ := by
    simp [flat, new]
  obtain ⟨f, hrun, hflat, hinv⟩ := Lib.run_simulates
    (fun s f => flat s = f ∧ Inv s)
    (fun s f c hrel => ⟨flat (step s c).2, hrel.1 ▸ (step_refines hrel.2 c).1,
      rfl, (step_refines hrel.2 c).2⟩) cs ⟨hempty, hfresh⟩
  refine ⟨hflat ▸ hrun, ⟨hinv.position_le, hinv.size_le, hinv.cur_eq, hinv.cur_lt⟩, ?_⟩
  exact Lib.run_outcomes_forall Inv
    (fun s c hs => ⟨step_no_fault hs c, (step_refines hs c).2⟩) cs hfresh

/-- A run over nodes of three bytes: a write across two nodes, a seek back, a
read across them, and a read that throws. -/
theorem run_refines_flat_three :
    (Lib.run step (new (fun _ _ => 0) 3)
        [.write [1, 2, 3, 4], .setPosition 1, .read 3, .read 1]).1 =
      [.done, .done, .bytes [2, 3, 4], .failed (.outOfRange "[read out of range]")] ∧
    Lib.SpecRun Flat.Step ⟨[], 0, 0⟩ [.write [1, 2, 3, 4], .setPosition 1, .read 3, .read 1]
      (Lib.run step (new (fun _ _ => 0) 3)
        [.write [1, 2, 3, 4], .setPosition 1, .read 3, .read 1]).1
      (flat (Lib.run step (new (fun _ _ => 0) 3)
        [.write [1, 2, 3, 4], .setPosition 1, .read 3, .read 1]).2) :=
  ⟨by decide, (run_refines_flat (fun _ _ => 0) (by decide)
    [.write [1, 2, 3, 4], .setPosition 1, .read 3, .read 1]).1⟩

end ByteArray
end Tiger
