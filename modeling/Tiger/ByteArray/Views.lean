import Tiger.ByteArray.Clear
import Tiger.Lib.Regions

/-!
# ByteArray - views

This module embeds the functions of `src/bytearray.cc` that look at the bytes of a `ByteArray`
from outside: `read` at a position, `to_string`, `write_to_file`, and the functions that hand
out the bytes as a list of `iovec`.  An `iovec` points into a node, so it is a region of the
blocks that the nodes own.

Main results:

- Theorem `gather_covers`: regions that cover a stretch of the nodes hold the bytes of it.
- Theorem `readAt_spec`: `read` at a position in front of the end returns the bytes there.
- Theorem `views_agree`: after every run from a new object, all views show the same bytes, and
  they are the ones that `read` returns.
-/

namespace Tiger
namespace ByteArray

/-! ## Regions of nodes -/

/-- `struct iovec`: a pointer into the block of a node, and a length. -/
abbrev Iovec := Lib.Region

/-- The bytes of the regions, one behind the other, as `writev` sends them. -/
def gather (nodes : List Node) : List Iovec → Except Failure (List UInt8)
  | [] => .ok []
  | iov :: iovs =>
      match nodes[iov.block]? with
      | none => .error .nullNode
      | some node => do
          let bytes ← node.load iov.off iov.len
          let bytes' ← gather nodes iovs
          return bytes ++ bytes'

/-- The loop of the functions that fill a vector of `iovec`, over the nodes from `cur` on. -/
def buffersLoop (cur npos len : Nat) (buffers : List Iovec) :
    List Node → Except Failure (List Iovec)
  | [] => .error .nullNode
  | node :: rest =>
      let ncap := node.size - npos
      if len ≤ ncap then .ok (buffers ++ [⟨cur, npos, len⟩])
      else buffersLoop (cur + 1) 0 (len - ncap) (buffers ++ [⟨cur, npos, ncap⟩]) rest

/-! ## Operations -/

/-- The first loop of the functions with a position: the node that contains it, and the offset
in this node. -/
def skipLoop (position : Nat) : List Node → Except Failure (Nat × Nat)
  | [] => .error .nullNode
  | node :: rest =>
      if position ≥ node.size then do
        let (cur, off) ← skipLoop (position - node.size) rest
        return (cur + 1, off)
      else return (0, position)

/-- `a - b` for values of type `size_t`. -/
def sizeSub (a b : Nat) : Nat := if b ≤ a then a - b else a + 2 ^ 64 - b

/-- `read(buf, size, position)` -/
def readAt (size position : Nat) : Op (List UInt8) := fun s =>
  if size > sizeSub s.size position then (.error (.outOfRange "[read not of range]"), s)
  else
    let npos := position % s.baseSize
    match skipLoop position s.nodes with
    | .error e => (.error e, s)
    | .ok (cur, _) =>
        if size = 0 then (.ok [], s)
        else
          match readLoop npos size (s.nodes.drop cur) with
          | .error e => (.error e, s)
          | .ok (bytes, _) => (.ok bytes, s)

/-- `to_string()` -/
def toString : Op (List UInt8) := fun s =>
  if s.getEnableReadSize = 0 then (.ok [], s) else readAt s.getEnableReadSize s.position s

/-- The loop of `write_to_file`, with what it hands to `ofs.write`. -/
def fileLoop (npos size : Nat) : List Node → Except Failure (List UInt8)
  | [] => .error .nullNode
  | node :: rest =>
      let ncap := node.size - npos
      if size ≤ ncap then node.load npos size
      else do
        let bytes ← node.load npos ncap
        let bytes' ← fileLoop 0 (size - ncap) rest
        return bytes ++ bytes'

/-- `write_to_file(name)`: what it returns, and the bytes of the file.  `opens` says whether the
file can be opened; it is emptied then. -/
def writeToFile (opens : Bool) : Op (Bool × List UInt8) := fun s =>
  if ¬opens then (.ok (false, []), s)
  else
    let size := s.getEnableReadSize
    let npos := s.position % s.baseSize
    match s.nodes.drop s.cur with
    | [] => (.error .nullNode, s)
    | node :: rest =>
        if size = 0 then (.ok (true, []), s)
        else
          match fileLoop npos size (node :: rest) with
          | .error e => (.error e, s)
          | .ok bytes => (.ok (true, bytes), s)

/-- `get_enable_read_buffers(buffers, len)`: the vector behind the call and the result. -/
def getEnableReadBuffers (buffers : List Iovec) (len : Nat) : Op (List Iovec × Nat) := fun s =>
  let len := if len > s.getEnableReadSize then s.getEnableReadSize else len
  if len = 0 then (.ok (buffers, 0), s)
  else
    let npos := s.position % s.baseSize
    match buffersLoop s.cur npos len buffers (s.nodes.drop s.cur) with
    | .error e => (.error e, s)
    | .ok buffers => (.ok (buffers, len), s)

/-- `get_enable_read_buffers(buffers, len, position)` -/
def getEnableReadBuffersAt (buffers : List Iovec) (len position : Nat) :
    Op (List Iovec × Nat) := fun s =>
  if position ≥ s.size then (.ok (buffers, 0), s)
  else
    let len := if len > s.size - position then s.size - position else len
    if len = 0 then (.ok (buffers, 0), s)
    else
      match skipLoop position s.nodes with
      | .error e => (.error e, s)
      | .ok (cur, off) =>
          match buffersLoop cur off len buffers (s.nodes.drop cur) with
          | .error e => (.error e, s)
          | .ok buffers => (.ok (buffers, len), s)

/-! ## The loops -/

section Loops

variable {base : Nat} {nodes : List Node}

/-- The bytes of all nodes around those of one of them. -/
theorem contents_split (hsize : ∀ n ∈ nodes, n.size = base) {i : Nat} {node : Node}
    (hnode : nodes[i]? = some node) :
    ∃ front back, nodes = front ++ node :: back ∧ front.length = i ∧
      (contents front).length = i * base ∧
      contents nodes = contents front ++ (node.ptr ++ contents back) := by
  obtain ⟨hi, hget⟩ := List.getElem?_eq_some_iff.mp hnode
  have hsplit : nodes = nodes.take i ++ node :: nodes.drop (i + 1) := by
    rw [← hget, ← List.drop_eq_getElem_cons hi, List.take_append_drop]
  have hlen : (nodes.take i).length = i := List.length_take_of_le hi.le
  refine ⟨nodes.take i, nodes.drop (i + 1), hsplit, hlen, ?_, ?_⟩
  · rw [contents_length fun n hn => hsize n (List.mem_of_mem_take hn), hlen]
  · conv_lhs => rw [hsplit, contents_append]
    rfl

/-- A region of a node holds a stretch of the bytes of all nodes. -/
theorem load_contents (hsize : ∀ n ∈ nodes, n.size = base) {i : Nat} {node : Node}
    (hnode : nodes[i]? = some node) {off len : Nat} (hin : off + len ≤ base) :
    node.load off len = .ok (((contents nodes).drop (i * base + off)).take len) := by
  have hnsize : node.size = base := hsize node (List.mem_of_getElem? hnode)
  have hptr : node.ptr.length = base := node.ptr_length.trans hnsize
  obtain ⟨front, back, -, -, hfront, hcontents⟩ := contents_split hsize hnode
  rw [Node.load, if_pos (hnsize ▸ hin), hcontents, ← hfront, List.drop_length_add_append,
    List.drop_append_of_le_length (by omega),
    List.take_append_of_le_length (by rw [List.length_drop]; omega)]

/-- Regions that cover a stretch hold the bytes of it. -/
theorem gather_covers (hsize : ∀ n ∈ nodes, n.size = base) {start len : Nat} {iovs : List Iovec}
    (h : Lib.Covers base start len iovs) (hfit : start + len ≤ nodes.length * base) :
    gather nodes iovs = .ok (((contents nodes).drop start).take len) := by
  induction h with
  | nil start => simp [gather]
  | @cons iov rest len hin hpos hrest ih =>
      have hinside := (Lib.Covers.cons hin hpos hrest).inside hfit iov List.mem_cons_self
      have hnode := List.getElem?_eq_getElem hinside.1
      have hload := load_contents hsize hnode hin
      rw [gather, hnode]
      simp only [hload, ih (by omega), bind, Except.bind, pure, Except.pure]
      rw [List.take_add, List.drop_drop]
      rfl

/-- The regions of the loop cover the bytes behind its start. -/
theorem buffersLoop_covers (hsize : ∀ n ∈ nodes, n.size = base) {npos len : Nat}
    (hnpos : npos < base) (hpos : 0 < len) (hfit : npos + len ≤ nodes.length * base) (cur : Nat)
    (buffers : List Iovec) :
    ∃ iovs, buffersLoop cur npos len buffers nodes = .ok (buffers ++ iovs) ∧
      Lib.Covers base (cur * base + npos) len iovs := by
  induction nodes generalizing cur npos len buffers with
  | nil =>
      rw [List.length_nil, Nat.zero_mul] at hfit
      omega
  | cons node rest ih =>
      have hhead := hsize node List.mem_cons_self
      rw [buffersLoop, hhead]
      by_cases hin : len ≤ base - npos
      · -- the last region
        rw [if_pos hin]
        exact ⟨_, rfl, Lib.Covers.cons (r := ⟨cur, npos, len⟩)
          (show npos + len ≤ base by omega) hpos (Lib.Covers.nil _)⟩
      · rw [if_neg hin]
        rw [List.length_cons, Nat.succ_mul] at hfit
        obtain ⟨iovs, hloop, hcovers⟩ := ih (fun n hn => hsize n (List.mem_cons_of_mem _ hn))
          (show 0 < base by omega) (show 0 < len - (base - npos) by omega) (by omega) (cur + 1)
          (buffers ++ [⟨cur, npos, base - npos⟩])
        refine ⟨⟨cur, npos, base - npos⟩ :: iovs, ?_, ?_⟩
        · rw [hloop, List.append_assoc, List.singleton_append]
        · -- the next node starts where the region ends
          have hstart : (cur + 1) * base + 0 = cur * base + npos + (base - npos) := by
            rw [Nat.succ_mul]
            omega
          have hlen : len = base - npos + (len - (base - npos)) := by omega
          rw [hstart] at hcovers
          rw [hlen]
          exact Lib.Covers.cons (r := ⟨cur, npos, base - npos⟩)
            (show npos + (base - npos) ≤ base by omega) (show 0 < base - npos by omega) hcovers

/-- The file gets the bytes that the read loop copies. -/
theorem fileLoop_eq (npos size : Nat) (nodes : List Node) :
    fileLoop npos size nodes = Prod.fst <$> readLoop npos size nodes := by
  induction nodes generalizing npos size with
  | nil => rfl
  | cons node rest ih =>
      rw [fileLoop, readLoop]
      split
      next hin => cases node.load npos size <;> rfl
      next hin =>
        rw [ih]
        cases node.load npos (node.size - npos) with
        | error e => rfl
        | ok bytes => cases readLoop 0 (size - (node.size - npos)) rest <;> rfl

/-- The search finds the node of a position inside of the nodes, and the offset in it. -/
theorem skipLoop_spec (hsize : ∀ n ∈ nodes, n.size = base) {position : Nat}
    (hin : position < nodes.length * base) :
    skipLoop position nodes = .ok (position / base, position % base) := by
  induction nodes generalizing position with
  | nil => simp at hin
  | cons node rest ih =>
      have hhead := hsize node List.mem_cons_self
      rw [List.length_cons, Nat.succ_mul] at hin
      rw [skipLoop, hhead]
      by_cases hpast : position ≥ base
      · have hbase : 0 < base := by
          by_contra hzero
          rw [Nat.eq_zero_of_not_pos hzero] at hin
          omega
        rw [if_pos hpast, ih (fun n hn => hsize n (List.mem_cons_of_mem _ hn)) (by omega),
          Nat.mod_eq_sub_mod hpast, Nat.div_eq_sub_div hbase hpast]
        rfl
      · rw [if_neg hpast, Nat.div_eq_of_lt (by omega), Nat.mod_eq_of_lt (by omega)]
        rfl

/-- Behind the last byte of the nodes there is no node to find. -/
theorem skipLoop_behind (hsize : ∀ n ∈ nodes, n.size = base) {position : Nat}
    (hbehind : nodes.length * base ≤ position) : skipLoop position nodes = .error .nullNode := by
  induction nodes generalizing position with
  | nil => rfl
  | cons node rest ih =>
      have hhead := hsize node List.mem_cons_self
      rw [List.length_cons, Nat.succ_mul] at hbehind
      rw [skipLoop, hhead, if_pos (by omega),
        ih (fun n hn => hsize n (List.mem_cons_of_mem _ hn)) (by omega)]
      rfl

/-- The bytes from an offset of a node on. -/
theorem drop_contents_drop (hsize : ∀ n ∈ nodes, n.size = base) {cur : Nat}
    (hcur : cur ≤ nodes.length) (off : Nat) :
    (contents (nodes.drop cur)).drop off = (contents nodes).drop (cur * base + off) := by
  have hfront : (contents (nodes.take cur)).length = cur * base := by
    rw [contents_length fun n hn => hsize n (List.mem_of_mem_take hn), List.length_take_of_le hcur]
  have hsplit : contents nodes = contents (nodes.take cur) ++ contents (nodes.drop cur) := by
    rw [← contents_append, List.take_append_drop]
  rw [hsplit, ← hfront, List.drop_length_add_append]

/-- Where a position is in the nodes from its own node on. -/
theorem position_fits {position size : Nat}
    (hfit : position + size ≤ nodes.length * base) (hin : position < nodes.length * base) :
    nodes.drop (position / base) ≠ [] ∧
      position % base + size ≤ (nodes.drop (position / base)).length * base := by
  have hdiv := Nat.div_lt_of_lt_mul (Nat.mul_comm _ _ ▸ hin)
  have hmod := Nat.div_add_mod position base
  have hmul := Nat.mul_le_mul_right base hdiv.le
  rw [Nat.mul_comm] at hmod
  constructor
  · intro hnil
    have hlen := congrArg List.length hnil
    rw [List.length_drop, List.length_nil] at hlen
    omega
  · rw [List.length_drop, Nat.sub_mul]
    omega

/-- The read loop from the node of a position on. -/
theorem readLoop_at (hsize : ∀ n ∈ nodes, n.size = base) {position size : Nat} (hbase : 0 < base)
    (hfit : position + size ≤ nodes.length * base) (hin : position < nodes.length * base) :
    ∃ advance, readLoop (position % base) size (nodes.drop (position / base)) =
      .ok (((contents nodes).drop position).take size, advance) := by
  have hdiv := Nat.div_lt_of_lt_mul (Nat.mul_comm _ _ ▸ hin)
  obtain ⟨hne, hfits⟩ := position_fits hfit hin
  have hloop := readLoop_le (fun n hn => hsize n (List.mem_of_mem_drop hn)) hne
    (Nat.mod_lt _ hbase) hfits
  rw [drop_contents_drop hsize hdiv.le, Nat.div_add_mod'] at hloop
  exact ⟨_, hloop⟩

end Loops

/-! ## Specifications of the views -/

/-- A part of the flat vector as a part of the bytes of the nodes. -/
theorem flat_slice (s : ByteArray) (position n : Nat) :
    ((flat s).bytes.drop position).take n =
      ((contents s.nodes).drop position).take (min n (s.size - position)) := by
  simp only [flat]
  rw [List.drop_take, List.take_take]

/-- What the views with a position rest on: equally sized nodes that hold `m_size` bytes. -/
structure Shaped (s : ByteArray) : Prop where
  base_pos : 0 < s.baseSize
  node_size : ∀ node ∈ s.nodes, node.size = s.baseSize
  size_le : s.size ≤ s.nodes.length * s.baseSize

section Specs

variable {s : ByteArray}

/-- The invariant of the flat model shapes the array. -/
theorem Inv.shaped (h : Inv s) : Shaped s := by
  refine ⟨h.base_pos, h.node_size, ?_⟩
  have hbytes := h.nodes_bytes
  have hsize := h.size_le
  omega

/-- `read` at a position returns the bytes there. -/
theorem readAt_spec (h : Shaped s) {size position : Nat} (hsize : position + size ≤ s.size)
    (hin : position < s.nodes.length * s.baseSize) :
    readAt size position s = (.ok (((flat s).bytes.drop position).take size), s) := by
  have hsub : sizeSub s.size position = s.size - position := if_pos (by omega)
  have hfit : position + size ≤ s.nodes.length * s.baseSize := hsize.trans h.size_le
  unfold readAt
  rw [if_neg (by rw [hsub]; omega), skipLoop_spec h.node_size hin, flat_slice,
    Nat.min_eq_left (by omega)]
  by_cases hzero : size = 0
  · simp [hzero]
  · obtain ⟨advance, hloop⟩ := readLoop_at h.node_size h.base_pos hfit hin
    simp only [if_neg hzero, hloop]

/-- The regions from a position on hold the bytes there, as many as there are. -/
theorem getEnableReadBuffersAt_spec (h : Shaped s) (buffers : List Iovec) (n : Nat)
    {position : Nat} (hpos : position < s.size) :
    ∃ iovs, getEnableReadBuffersAt buffers n position s =
        (.ok (buffers ++ iovs, min n (s.size - position)), s) ∧
      gather s.nodes iovs = .ok (((flat s).bytes.drop position).take n) := by
  have hmin : (if n > s.size - position then s.size - position else n) =
      min n (s.size - position) := by
    split <;> omega
  have hin : position < s.nodes.length * s.baseSize := hpos.trans_le h.size_le
  unfold getEnableReadBuffersAt
  rw [if_neg (Nat.not_le_of_lt hpos), hmin, flat_slice]
  by_cases hzero : min n (s.size - position) = 0
  · exact ⟨[], by simp [hzero], by simp [hzero, gather]⟩
  · have hsize := h.size_le
    have hfit : position + min n (s.size - position) ≤ s.nodes.length * s.baseSize := by omega
    have hfits := (position_fits hfit hin).2
    obtain ⟨iovs, hloop, hcovers⟩ := buffersLoop_covers
      (fun m hm => h.node_size m (List.mem_of_mem_drop hm)) (Nat.mod_lt position h.base_pos)
      (Nat.pos_of_ne_zero hzero) hfits (position / s.baseSize) buffers
    rw [Nat.div_add_mod'] at hcovers
    simp only [if_neg hzero, skipLoop_spec h.node_size hin, hloop]
    exact ⟨iovs, rfl, gather_covers h.node_size hcovers hfit⟩

/-- The regions from the cursor on hold the bytes there, as many as there are. -/
theorem getEnableReadBuffers_spec (h : Inv s) (buffers : List Iovec) (n : Nat) :
    ∃ iovs, getEnableReadBuffers buffers n s =
        (.ok (buffers ++ iovs, min n (s.size - s.position)), s) ∧
      gather s.nodes iovs = .ok (((flat s).bytes.drop s.position).take n) := by
  have hmin : (if n > s.getEnableReadSize then s.getEnableReadSize else n) =
      min n (s.size - s.position) := by
    rw [getEnableReadSize]
    split <;> omega
  unfold getEnableReadBuffers
  rw [hmin, flat_slice]
  by_cases hzero : min n (s.size - s.position) = 0
  · exact ⟨[], by simp [hzero], by simp [hzero, gather]⟩
  · have hpos := h.position_le
    have hsize := h.size_le
    have hfits := h.fits (n := min n (s.size - s.position)) (by omega)
    obtain ⟨iovs, hloop, hcovers⟩ := buffersLoop_covers
      (fun m hm => h.node_size m (List.mem_of_mem_drop hm)) (Nat.mod_lt s.position h.base_pos)
      (Nat.pos_of_ne_zero hzero) hfits.le s.cur buffers
    rw [h.position_eq] at hcovers
    have hbytes := h.nodes_bytes
    simp only [if_neg hzero, hloop]
    exact ⟨iovs, rfl, gather_covers h.node_size hcovers (by omega)⟩

/-- The file gets all bytes from the cursor on. -/
theorem writeToFile_spec (h : Inv s) :
    writeToFile true s = (.ok (true, (flat s).bytes.drop s.position), s) := by
  have hpos := h.position_le
  have hsize := h.size_le
  have hbytes := h.nodes_bytes
  have hbase := h.base_pos
  have hall : (flat s).bytes.drop s.position =
      ((contents s.nodes).drop s.position).take (s.size - s.position) := List.drop_take
  have hin : s.position < s.nodes.length * s.baseSize := by omega
  have hfit : s.position + (s.size - s.position) ≤ s.nodes.length * s.baseSize := by omega
  have hne := (position_fits hfit hin).1
  obtain ⟨advance, hloop⟩ := readLoop_at h.node_size hbase hfit hin
  rw [← h.cur_eq] at hne hloop
  unfold writeToFile
  rw [if_neg (by simp), hall]
  cases hnodes : s.nodes.drop s.cur with
  | nil => exact absurd hnodes hne
  | cons node rest =>
      by_cases hzero : s.getEnableReadSize = 0
      · rw [getEnableReadSize] at hzero
        simp [getEnableReadSize, hzero]
      · rw [hnodes] at hloop
        simp only [if_neg hzero]
        rw [fileLoop_eq, getEnableReadSize, hloop]
        rfl

/-- `to_string` returns all bytes from the cursor on. -/
theorem toString_spec (h : Inv s) :
    toString s = (.ok ((flat s).bytes.drop s.position), s) := by
  have hlen : ((flat s).bytes.drop s.position).length = s.size - s.position := by
    rw [List.length_drop, h.flat_length]
  unfold toString
  rw [getEnableReadSize]
  by_cases hzero : s.size - s.position = 0
  · rw [if_pos hzero, List.length_eq_zero_iff.mp (hlen.trans hzero)]
  · have hsize := h.shaped.size_le
    rw [if_neg hzero, readAt_spec h.shaped (by omega) (by omega), ← hlen, List.take_length]

end Specs

/-! ## Runs -/

/-- The invariant holds behind every run from a fresh array. -/
theorem run_inv (junk : Nat → Nat → UInt8) {baseSize : Nat} (hbase : 0 < baseSize)
    (cs : List Cmd) : Inv (Lib.run step (new junk baseSize) cs).2 := by
  rw [Lib.run_snd]
  exact Lib.foldl_keeps Inv (fun s c h => (step_refines h c).2) cs (inv_new junk hbase)

/-- After every run of `write`, `read` and `set_position` from a new object, all views show the
bytes between `m_position` and `m_size`, cut to the length that was asked for, `read` returns
these bytes, the views with a position show the bytes behind it, and no view changes the object. -/
theorem views_agree (junk : Nat → Nat → UInt8) {baseSize : Nat} (hbase : 1 ≤ baseSize)
    (cs : List Cmd) :
    let s := (Lib.run step (new junk baseSize) cs).2
    let content := (flat s).bytes
    let left := content.drop s.position
    content.length = s.size ∧
      toString s = (.ok left, s) ∧
      writeToFile true s = (.ok (true, left), s) ∧
      (∀ m, m ≤ left.length → (read m s).1 = .ok (left.take m)) ∧
      (∀ buffers n, ∃ iovs,
        getEnableReadBuffers buffers n s = (.ok (buffers ++ iovs, min n left.length), s) ∧
          gather s.nodes iovs = .ok (left.take n)) ∧
      (∀ buffers n, ∃ iovs,
        getEnableReadBuffersAt buffers n s.position s =
            (.ok (buffers ++ iovs, min n left.length), s) ∧
          gather s.nodes iovs = .ok (left.take n)) ∧
      ∀ p, p < s.size →
        (∀ buffers n, ∃ iovs,
          getEnableReadBuffersAt buffers n p s =
              (.ok (buffers ++ iovs, min n (s.size - p)), s) ∧
            gather s.nodes iovs = .ok ((content.drop p).take n)) ∧
        ∀ n, n ≤ s.size - p → readAt n p s = (.ok ((content.drop p).take n), s) := by
  intro s content left
  have h : Inv s := run_inv junk hbase cs
  have hleft : left.length = s.size - s.position := by
    rw [List.length_drop, h.flat_length]
  rw [hleft]
  refine ⟨h.flat_length, toString_spec h, writeToFile_spec h, ?_, ?_, ?_, ?_⟩
  · intro m hm
    obtain ⟨s', hread, -⟩ := read_spec h hm
    rw [hread]
  · intro buffers n
    exact getEnableReadBuffers_spec h buffers n
  · intro buffers n
    by_cases hpos : s.position < s.size
    · exact getEnableReadBuffersAt_spec h.shaped buffers n hpos
    · -- the cursor is at the end
      have hzero : s.size - s.position = 0 := by omega
      refine ⟨[], ?_, ?_⟩
      · rw [getEnableReadBuffersAt, if_pos (Nat.le_of_not_lt hpos), hzero, Nat.min_zero,
          List.append_nil]
      · rw [List.length_eq_zero_iff.mp (hleft.trans hzero), List.take_nil]
        rfl
  · intro p hp
    refine ⟨fun buffers n => getEnableReadBuffersAt_spec h.shaped buffers n hp, ?_⟩
    intro n hn
    have hsize := h.shaped.size_le
    exact readAt_spec h.shaped (by omega) (by omega)

/-- Five bytes over nodes of two, with the cursor in the second node: `to_string` and the
regions of the last two nodes. -/
theorem views_agree_five :
    toString (Lib.run step (new (fun _ _ => 0) 2)
        [.write [1, 2, 3, 4, 5], .setPosition 3]).2 =
      (.ok [4, 5], (Lib.run step (new (fun _ _ => 0) 2)
        [.write [1, 2, 3, 4, 5], .setPosition 3]).2) ∧
    (getEnableReadBuffers [] 9 (Lib.run step (new (fun _ _ => 0) 2)
        [.write [1, 2, 3, 4, 5], .setPosition 3]).2).1 = .ok ([⟨1, 1, 1⟩, ⟨2, 0, 1⟩], 2) :=
  ⟨(views_agree (fun _ _ => 0) (by decide) [.write [1, 2, 3, 4, 5], .setPosition 3]).2.1,
    by decide⟩

end ByteArray
end Tiger
