import Tiger.ByteArray.Views

/-!
# ByteArray - receiving without a copy

This module embeds `get_enable_write_buffers` (`src/bytearray.cc`) and the way in which
`SocketStream::read` (`src/streams/socket_stream.cc`) uses it: the socket stores what it
receives into the regions, and `set_position` moves the cursor behind these bytes.

Main results:

- Theorem `scatter_covers`: bytes that are stored into regions that cover a stretch overwrite
  the bytes of this stretch.
- Theorem `receive_agrees_write`: after every run from a new object, the regions are disjoint,
  inside of nodes and together as long as asked for, and bytes that are received through them
  leave the object as `write` does.
-/

namespace Tiger
namespace ByteArray

/-! ## Operations -/

/-- `get_enable_write_buffers(buffers, len)` -/
def getEnableWriteBuffers (buffers : List Iovec) (len : Nat) : Op (List Iovec × Nat) := fun s =>
  if len = 0 then (.ok (buffers, 0), s)
  else
    let s := s.addFreeCapacityTo len
    let npos := s.position % s.baseSize
    match buffersLoop s.cur npos len buffers (s.nodes.drop s.cur) with
    | .error e => (.error e, s)
    | .ok buffers => (.ok (buffers, len), s)

/-- What `readv` does with the bytes that it has for the regions: it stores them in order, and
fills a region before it goes on to the next one. -/
def scatter : List Iovec → List UInt8 → List Node → Except Failure (List Node)
  | [], _, nodes => .ok nodes
  | iov :: iovs, bytes, nodes =>
      match nodes[iov.block]? with
      | none => .error .nullNode
      | some node => do
          let node' ← node.store iov.off (bytes.take iov.len)
          scatter iovs (bytes.drop iov.len) (nodes.set iov.block node')

/-- What `SocketStream::read(ba, len)` does to `ba` when the socket has `bytes` for it. -/
def receive (len : Nat) (bytes : List UInt8) : Op Unit := fun s =>
  match getEnableWriteBuffers [] len s with
  | (.error e, s) => (.error e, s)
  | (.ok (iovs, _), s) =>
      match scatter iovs bytes s.nodes with
      | .error e => (.error e, s)
      | .ok nodes =>
          let s := { s with nodes := nodes }
          if bytes.length > 0 then setPosition (s.position + bytes.length) s else (.ok (), s)

/-! ## Storing into regions -/

section Scatter

variable {base : Nat} {nodes : List Node}

/-- A node with other bytes in a part of it. -/
theorem contents_set (hsize : ∀ n ∈ nodes, n.size = base) {i : Nat} {node node' : Node}
    (hnode : nodes[i]? = some node) {off : Nat} {src : List UInt8} (hin : off + src.length ≤ base)
    (hptr : node'.ptr = overwrite node.ptr off src) :
    contents (nodes.set i node') = overwrite (contents nodes) (i * base + off) src := by
  have hlen : node.ptr.length = base := by
    rw [node.ptr_length, hsize node (List.mem_of_getElem? hnode)]
  obtain ⟨front, back, hsplit, hi, hfront, hcontents⟩ := contents_split hsize hnode
  have hset : nodes.set i node' = front ++ node' :: back := by
    rw [hsplit, ← hi, List.set_append_right _ _ le_rfl, Nat.sub_self, List.set_cons_zero]
  rw [hset, hcontents, ← hfront, overwrite_append_right, overwrite_append_left _ (hlen ▸ hin),
    ← hptr, contents_append]
  rfl

/-- Replacing a block by one of the same size keeps the block size. -/
theorem set_sizes (hsize : ∀ n ∈ nodes, n.size = base) (i : Nat) {node' : Node}
    (hnode' : node'.size = base) : ∀ n ∈ nodes.set i node', n.size = base := by
  intro n hn
  rcases List.mem_or_eq_of_mem_set hn with hn | rfl
  · exact hsize n hn
  · exact hnode'

/-- Storing bytes keeps the number of nodes and their sizes. -/
theorem scatter_sizes (hsize : ∀ n ∈ nodes, n.size = base) {iovs : List Iovec}
    {bytes : List UInt8} {nodes' : List Node} (h : scatter iovs bytes nodes = .ok nodes') :
    nodes'.length = nodes.length ∧ ∀ n ∈ nodes', n.size = base := by
  induction iovs generalizing nodes bytes with
  | nil =>
      cases h
      exact ⟨rfl, hsize⟩
  | cons iov iovs ih =>
      rw [scatter] at h
      split at h
      next => cases h
      next node hnode =>
        cases hstore : node.store iov.off (bytes.take iov.len) with
        | error e =>
            rw [hstore] at h
            cases h
        | ok node' =>
            rw [hstore] at h
            have hsize' : node'.size = base := by
              rw [Node.store] at hstore
              split at hstore
              next =>
                cases hstore
                exact hsize node (List.mem_of_getElem? hnode)
              next => cases hstore
            obtain ⟨hlength, hall⟩ := ih (set_sizes hsize iov.block hsize') h
            exact ⟨by rw [hlength, List.length_set], hall⟩

/-- Bytes that are stored into regions that cover a stretch overwrite the stretch. -/
theorem scatter_covers (hsize : ∀ n ∈ nodes, n.size = base) {start len : Nat} {iovs : List Iovec}
    (h : Lib.Covers base start len iovs) (hfit : start + len ≤ nodes.length * base)
    {bytes : List UInt8} (hbytes : bytes.length ≤ len) :
    ∃ nodes', scatter iovs bytes nodes = .ok nodes' ∧
      contents nodes' = overwrite (contents nodes) start bytes := by
  induction h generalizing nodes bytes with
  | nil start =>
      have hnil : bytes = [] := List.length_eq_zero_iff.mp (Nat.le_zero.mp hbytes)
      exact ⟨nodes, rfl, by rw [hnil, overwrite_nil]⟩
  | @cons iov rest len hin hpos hrest ih =>
      have hinside := (Lib.Covers.cons hin hpos hrest).inside hfit iov List.mem_cons_self
      obtain ⟨node, hnode⟩ : ∃ node, nodes[iov.block]? = some node :=
        ⟨_, List.getElem?_eq_getElem hinside.1⟩
      have hnsize := hsize node (List.mem_of_getElem? hnode)
      have htake : iov.off + (bytes.take iov.len).length ≤ base := by
        have hle := Nat.min_le_left iov.len bytes.length
        rw [List.length_take]
        omega
      obtain ⟨node', hstore, hsize', hptr⟩ :=
        store_ok node iov.off (bytes.take iov.len) (hnsize ▸ htake)
      have hset := contents_set hsize hnode htake hptr
      obtain ⟨nodes', hscatter, hcontents⟩ := ih (set_sizes hsize iov.block (hsize'.trans hnsize))
        (by rw [List.length_set]; omega)
        (show (bytes.drop iov.len).length ≤ len by rw [List.length_drop]; omega)
      refine ⟨nodes', ?_, ?_⟩
      · rw [scatter, hnode]
        simp only [hstore, bind, Except.bind]
        exact hscatter
      · rw [hcontents, hset]
        by_cases hall : iov.len ≤ bytes.length
        · -- the region is full, and the rest goes behind it
          have hstart : iov.start base ≤ (contents nodes).length := by
            rw [contents_length hsize]
            omega
          have hjoin := overwrite_overwrite (bytes.take iov.len) (bytes.drop iov.len) hstart
          rw [List.length_take_of_le hall, List.take_append_drop] at hjoin
          exact hjoin
        · -- all bytes are in this region
          rw [List.drop_eq_nil_of_le (Nat.le_of_not_le hall), overwrite_nil,
            List.take_of_length_le (Nat.le_of_not_le hall)]
          rfl

end Scatter

/-! ## Specifications -/

section Specs

variable {s : ByteArray}

/-- Growing keeps the block size. -/
theorem addFreeCapacityTo_baseSize (s : ByteArray) (size : Nat) :
    (s.addFreeCapacityTo size).baseSize = s.baseSize := by
  unfold addFreeCapacityTo
  obtain ⟨fresh, -, -, heq⟩ :=
    appendNodes_spec s ((size - s.getFreeCapacity + s.baseSize - 1) / s.baseSize + 1)
  by_cases hfree : s.getFreeCapacity > size
  · simp only [if_pos hfree]
  · simp [if_neg hfree, heq]

/-- Writing keeps the block size. -/
theorem write_baseSize (buf : List UInt8) (s : ByteArray) :
    (write buf s).2.baseSize = s.baseSize := by
  unfold write
  split
  next => rfl
  next =>
    have hgrown := addFreeCapacityTo_baseSize s buf.length
    dsimp only
    split
    next => exact hgrown
    next => exact hgrown

/-- The regions of `get_enable_write_buffers` cover the room behind the cursor. -/
theorem getEnableWriteBuffers_spec (h : Inv s) (buffers : List Iovec) {len : Nat}
    (hlen : 0 < len) :
    ∃ fresh extra iovs,
      getEnableWriteBuffers buffers len s =
        (.ok (buffers ++ iovs, len),
          { s with nodes := s.nodes ++ fresh, capacity := s.capacity + extra }) ∧
      Inv { s with nodes := s.nodes ++ fresh, capacity := s.capacity + extra } ∧
      s.position + len < s.capacity + extra ∧ Lib.Covers s.baseSize s.position len iovs := by
  obtain ⟨fresh, extra, heq, hinv, hroom⟩ := addFreeCapacityTo_spec h len
  rw [heq] at hinv
  have hfits := hinv.fits (n := len) hroom.le
  obtain ⟨iovs, hloop, hcovers⟩ := buffersLoop_covers
    (fun m hm => hinv.node_size m (List.mem_of_mem_drop hm)) (Nat.mod_lt s.position h.base_pos)
    hlen hfits.le s.cur buffers
  rw [h.position_eq] at hcovers
  refine ⟨fresh, extra, iovs, ?_, hinv, hroom, hcovers⟩
  unfold getEnableWriteBuffers
  simp only [if_neg hlen.ne', heq, hloop]

/-- Other bytes in the nodes keep the invariant. -/
theorem Inv.setNodes (h : Inv s) {nodes : List Node} (hlen : nodes.length = s.nodes.length)
    (hsize : ∀ node ∈ nodes, node.size = s.baseSize) : Inv { s with nodes := nodes } :=
  ⟨h.base_pos, hsize, hlen ▸ h.nodes_bytes, h.position_le, h.size_le, h.cur_eq⟩

/-- Receiving overwrites the flat vector at the cursor and advances it, as `write` does. -/
theorem receive_spec (h : Inv s) {len : Nat} (hlen : 0 < len) (bytes : List UInt8)
    (hbytes : bytes.length ≤ len) :
    ∃ s', receive len bytes s = (.ok (), s') ∧ Inv s' ∧
      s'.position = s.position + bytes.length ∧
      (flat s').bytes = overwrite (flat s).bytes s.position bytes := by
  obtain ⟨fresh, extra, iovs, hbuffers, hinv, hroom, hcovers⟩ :=
    getEnableWriteBuffers_spec h [] hlen
  set grown : ByteArray :=
    { s with nodes := s.nodes ++ fresh, capacity := s.capacity + extra } with hgrown
  have hroom' : grown.position + len < grown.capacity := hroom
  have hfit : grown.position + len ≤ grown.nodes.length * grown.baseSize := by
    have hgrownBytes := hinv.nodes_bytes
    omega
  obtain ⟨nodes, hscatter, hcontents⟩ := scatter_covers hinv.node_size hcovers hfit hbytes
  obtain ⟨hlength, hsizes⟩ := scatter_sizes hinv.node_size hscatter
  have hstored : Inv { grown with nodes := nodes } := hinv.setNodes hlength hsizes
  have hflat : (contents nodes).take (max s.size (s.position + bytes.length)) =
      overwrite (flat s).bytes s.position bytes := by
    refine flat_overwrite h ?_ hcontents
    rw [contents_length hinv.node_size]
    exact (Nat.add_le_add_left hbytes s.position).trans hfit
  unfold receive
  simp only [hbuffers, List.nil_append, hscatter]
  by_cases hempty : bytes.length > 0
  · rw [if_pos hempty]
    have hle : s.position + bytes.length ≤ grown.capacity :=
      (Nat.add_le_add_left hbytes s.position).trans hroom.le
    obtain ⟨s', -, hset, hinv', -, -, hpos, -⟩ := setPosition_spec hstored hle
    have hset' := setPosition_eq hstored hle
    rw [hset'] at hset
    cases hset
    exact ⟨_, hset', hinv', rfl, hflat⟩
  · have hzero : bytes.length = 0 := Nat.eq_zero_of_not_pos hempty
    rw [if_neg hempty]
    refine ⟨_, rfl, hstored, ?_, ?_⟩
    · rw [hzero]
      rfl
    · rw [← hflat, hzero, Nat.add_zero, max_eq_left h.position_le]
      rfl

end Specs

/-! ## Receiving and writing -/

/-- After every run of `write`, `read` and `set_position` from a new object, the regions for
`len` bytes are disjoint, inside of nodes and together `len` bytes long.  When up to `len` bytes
are stored into them in order, `set_position` behind these bytes does not throw, and the object
has the content, the cursor, the size and the cursor node that `write` leaves. -/
theorem receive_agrees_write (junk : Nat → Nat → UInt8) {baseSize : Nat} (hbase : 1 ≤ baseSize)
    (cs : List Cmd) (buffers : List Iovec) {len : Nat} (hlen : 1 ≤ len) {bytes : List UInt8}
    (hbytes : bytes.length ≤ len) :
    let s := (Lib.run step (new junk baseSize) cs).2
    ∃ iovs grown nodes received written,
      getEnableWriteBuffers buffers len s = (.ok (buffers ++ iovs, len), grown) ∧
        iovs.Pairwise Lib.Region.Disjoint ∧
        (∀ iov ∈ iovs, iov.Inside grown.baseSize grown.nodes.length) ∧
        (iovs.map Lib.Region.len).sum = len ∧
      scatter iovs bytes grown.nodes = .ok nodes ∧
      setPosition (s.position + bytes.length) { grown with nodes := nodes } =
        (.ok (), received) ∧
      write bytes s = (.ok (), written) ∧
      (flat received).bytes = (flat written).bytes ∧
        received.position = written.position ∧ received.size = written.size ∧
        received.cur = written.cur := by
  intro s
  have h : Inv s := run_inv junk hbase cs
  obtain ⟨fresh, extra, iovs, hbuffers, hinv, hroom, hcovers⟩ :=
    getEnableWriteBuffers_spec h buffers hlen
  set grown : ByteArray :=
    { s with nodes := s.nodes ++ fresh, capacity := s.capacity + extra } with hgrown
  have hroom' : grown.position + len < grown.capacity := hroom
  have hfit : grown.position + len ≤ grown.nodes.length * grown.baseSize := by
    have hgrownBytes := hinv.nodes_bytes
    omega
  obtain ⟨nodes, hscatter, hcontents⟩ := scatter_covers hinv.node_size hcovers hfit hbytes
  obtain ⟨hlength, hsizes⟩ := scatter_sizes hinv.node_size hscatter
  have hstored : Inv { grown with nodes := nodes } := hinv.setNodes hlength hsizes
  have hset := setPosition_eq hstored (v := s.position + bytes.length)
    ((Nat.add_le_add_left hbytes s.position).trans hroom.le)
  obtain ⟨written, hwrite, hwritten, -, -, hwpos, hwbytes⟩ := write_spec h bytes
  have hwbase : written.baseSize = s.baseSize := by
    rw [← write_baseSize bytes s, hwrite]
  refine ⟨iovs, grown, nodes, _, written, hbuffers, hcovers.pairwise_disjoint,
    hcovers.inside hfit, hcovers.sum_len, hscatter, hset, hwrite, ?_⟩
  have hflat : (contents nodes).take (max s.size (s.position + bytes.length)) =
      (flat written).bytes := by
    rw [hwbytes]
    refine flat_overwrite h ?_ hcontents
    rw [contents_length hinv.node_size]
    exact (Nat.add_le_add_left hbytes s.position).trans hfit
  refine ⟨hflat, hwpos.symm, ?_, ?_⟩
  · -- both sizes are the length of the content
    rw [← hwritten.flat_length, ← hflat, List.length_take, contents_length hsizes, hlength]
    symm
    apply Nat.min_eq_left
    apply max_le
    · exact hinv.shaped.size_le
    · exact (Nat.add_le_add_left hbytes s.position).trans hfit
  · rw [hwritten.cur_eq, hwpos, hwbase]

/-- Four bytes over nodes of two, the cursor at the third: room for three bytes, of which two are
received. -/
theorem receive_agrees_write_two :
    (getEnableWriteBuffers [] 3 (Lib.run step (new (fun _ _ => 0) 2)
        [.write [1, 2, 3, 4], .setPosition 3]).2).1 = .ok ([⟨1, 1, 1⟩, ⟨2, 0, 2⟩], 3) ∧
    ∃ iovs grown nodes received written,
      getEnableWriteBuffers [] 3 (Lib.run step (new (fun _ _ => 0) 2)
        [.write [1, 2, 3, 4], .setPosition 3]).2 = (.ok (iovs, 3), grown) ∧
      scatter iovs [8, 9] grown.nodes = .ok nodes ∧
      setPosition 5 { grown with nodes := nodes } = (.ok (), received) ∧
      write [8, 9] (Lib.run step (new (fun _ _ => 0) 2)
        [.write [1, 2, 3, 4], .setPosition 3]).2 = (.ok (), written) ∧
      (flat received).bytes = (flat written).bytes := by
  refine ⟨by decide, ?_⟩
  obtain ⟨iovs, grown, nodes, received, written, hbuffers, -, -, -, hscatter, hset, hwrite, hflat,
    -⟩ := receive_agrees_write (fun _ _ => 0) (show 1 ≤ 2 by decide)
      [.write [1, 2, 3, 4], .setPosition 3] [] (show 1 ≤ 3 by decide)
      (show ([8, 9] : List UInt8).length ≤ 3 by decide)
  exact ⟨iovs, grown, nodes, received, written, hbuffers, hscatter, hset, hwrite, hflat⟩

end ByteArray
end Tiger
