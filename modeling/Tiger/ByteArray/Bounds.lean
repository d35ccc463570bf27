import Tiger.ByteArray.Receive

/-!
# ByteArray - the bounds of a read at a position

`read(buf, size, position)` (`src/bytearray.cc`) compares `size` with `m_size - position`, a
subtraction of unsigned numbers that wraps around behind the end of the data.  It then walks
to the node of the position, and at the end of the last node there is none.

`Sound` is what holds between calls when objects are also cleared and bytes are received
through regions.  It lets the cursor node lie in front of the cursor, as `write` leaves it at the
end of the last node of a cleared object.

Main results:

- Theorem `act_sound`: every call keeps `Sound`.
- Theorem `readAt_throws_iff`: when a read at a position throws.
- Theorem `keepsBounds_iff`: in every state that is reached by calls, exactly when it keeps its
  bounds.
-/

namespace Tiger
namespace ByteArray

/-! ## Calls -/

/-- The calls that change an object. -/
inductive Action
  | call (c : Call)
  | getEnableWriteBuffers (len : Nat)
  | receive (len : Nat) (bytes : List UInt8)
  | setLittleEndian (v : Bool)

/-- The object behind a call. -/
def act (s : ByteArray) : Action → ByteArray
  | .call c => s.next c
  | .getEnableWriteBuffers len => (getEnableWriteBuffers [] len s).2
  | .receive len bytes => (receive len bytes s).2
  | .setLittleEndian v => s.setLittleEndian v

/-! ## The invariant -/

/-- What holds between calls: the nodes hold `m_capacity` bytes, and the cursor node exists and
does not start behind the cursor. -/
structure Sound (s : ByteArray) : Prop where
  base_pos : 0 < s.baseSize
  node_size : ∀ node ∈ s.nodes, node.size = s.baseSize
  capacity_le : s.capacity ≤ s.nodes.length * s.baseSize
  position_le : s.position ≤ s.size
  size_le : s.size ≤ s.capacity
  cur_lt : s.cur < s.nodes.length
  cur_le : s.cur * s.baseSize ≤ s.position

/-- A fresh array is sound. -/
theorem sound_new (junk : Nat → Nat → UInt8) {baseSize : Nat} (hbase : 0 < baseSize) :
    Sound (new junk baseSize) where
  base_pos := hbase
  node_size := (inv_new junk hbase).node_size
  capacity_le := Nat.zero_le _
  position_le := le_rfl
  size_le := le_rfl
  cur_lt := Nat.zero_lt_one
  cur_le := by simp [new]

namespace Sound

variable {s : ByteArray}

theorem shaped (h : Sound s) : Shaped s :=
  ⟨h.base_pos, h.node_size, h.size_le.trans h.capacity_le⟩

/-- Where the loops start is not behind the cursor. -/
theorem start_le (h : Sound s) : s.cur * s.baseSize + s.position % s.baseSize ≤ s.position := by
  have hle : s.cur ≤ s.position / s.baseSize := (Nat.le_div_iff_mul_le h.base_pos).mpr h.cur_le
  have hmul := Nat.mul_le_mul_right s.baseSize hle
  have hmod := Nat.div_add_mod' s.position s.baseSize
  omega

/-- What is left of the nodes from the cursor node on. -/
theorem fits (h : Sound s) {n : Nat} (hn : s.position + n ≤ s.nodes.length * s.baseSize) :
    s.position % s.baseSize + n ≤ (s.nodes.drop s.cur).length * s.baseSize := by
  have hstart := h.start_le
  rw [List.length_drop, Nat.sub_mul]
  omega

/-- Moving the cursor node on with the cursor. -/
theorem cur_add_le (h : Sound s) {n advance : Nat}
    (hadvance : advance ≤ (s.position % s.baseSize + n) / s.baseSize) :
    (s.cur + advance) * s.baseSize ≤ s.position + n := by
  have hstart := h.start_le
  have hmul := (Nat.mul_le_mul_right s.baseSize hadvance).trans (Nat.div_mul_le_self _ _)
  rw [Nat.add_mul]
  omega

/-- Clearing keeps an array sound. -/
theorem clear (h : Sound s) (junk : Nat → Nat → UInt8) : Sound (s.clear junk) := by
  have hlen : (s.nodes.take 1).length = 1 := List.length_take_of_le (by have := h.cur_lt; omega)
  refine ⟨h.base_pos, ?_, ?_, le_rfl, Nat.zero_le _, ?_, ?_⟩
  · exact fun node hnode => h.node_size node (List.mem_of_mem_take hnode)
  · change s.baseSize ≤ (s.nodes.take 1).length * s.baseSize
    rw [hlen, Nat.one_mul]
  · change 0 < (s.nodes.take 1).length
    omega
  · change 0 * s.baseSize ≤ 0
    omega

/-- More nodes, and room in them. -/
theorem grow (h : Sound s) (size : Nat) :
    Sound (s.addFreeCapacityTo size) ∧ (s.addFreeCapacityTo size).position = s.position ∧
      s.position + size < (s.addFreeCapacityTo size).capacity := by
  obtain ⟨fresh, extra, heq, hfresh, hextra, hroom⟩ :=
    addFreeCapacityTo_grows h.base_pos (h.position_le.trans h.size_le) size
  rw [heq]
  refine ⟨⟨h.base_pos, ?_, ?_, h.position_le, h.size_le.trans (Nat.le_add_right _ _), ?_,
    h.cur_le⟩, rfl, hroom⟩
  · intro node hnode
    rcases List.mem_append.mp hnode with hnode | hnode
    · exact h.node_size node hnode
    · exact hfresh node hnode
  · have hcap := h.capacity_le
    change s.capacity + extra ≤ (s.nodes ++ fresh).length * s.baseSize
    rw [List.length_append, Nat.add_mul]
    omega
  · have hcur := h.cur_lt
    change s.cur < (s.nodes ++ fresh).length
    rw [List.length_append]
    omega

/-- Other bytes in the nodes. -/
theorem setNodes (h : Sound s) {nodes : List Node} (hlen : nodes.length = s.nodes.length)
    (hsize : ∀ node ∈ nodes, node.size = s.baseSize) : Sound { s with nodes := nodes } :=
  ⟨h.base_pos, hsize, hlen ▸ h.capacity_le, h.position_le, h.size_le, hlen ▸ h.cur_lt, h.cur_le⟩

end Sound

/-! ## Calls keep the invariant -/

section Calls

variable {s : ByteArray}

/-- Writing succeeds on a sound array and keeps it sound. -/
theorem write_sound (h : Sound s) (buf : List UInt8) :
    ∃ s', write buf s = (.ok (), s') ∧ Sound s' := by
  unfold write
  by_cases hempty : buf.length = 0
  · exact ⟨s, if_pos hempty, h⟩
  · obtain ⟨hgrown, hpos, hroom⟩ := h.grow buf.length
    simp only [if_neg hempty]
    generalize s.addFreeCapacityTo buf.length = grown at hgrown hpos hroom
    rw [← hpos] at hroom
    have hcap := hgrown.capacity_le
    have hfits : grown.position % grown.baseSize + buf.length <
        (grown.nodes.drop grown.cur).length * grown.baseSize := by
      have hnext := hgrown.fits (n := buf.length + 1) (by omega)
      omega
    obtain ⟨nodes', hloop, -, hlen, hsizes⟩ := writeLoop_spec
      (fun n hn => hgrown.node_size n (List.mem_of_mem_drop hn)) (Nat.mod_lt _ hgrown.base_pos)
      hfits
    rw [hloop]
    have hlength : (grown.nodes.take grown.cur ++ nodes').length = grown.nodes.length :=
      spliced_length hlen
    have hadvance := Nat.div_lt_of_lt_mul (Nat.mul_comm _ _ ▸ hfits)
    refine ⟨_, rfl, hgrown.base_pos, ?_, ?_, ?_, ?_, ?_, hgrown.cur_add_le le_rfl⟩
    · exact spliced_sizes hgrown.node_size hsizes
    · change grown.capacity ≤ (grown.nodes.take grown.cur ++ nodes').length * grown.baseSize
      rw [hlength]
      exact hcap
    · change grown.position + buf.length ≤ ite _ _ _
      split <;> omega
    · have hsize := hgrown.size_le
      change ite _ _ _ ≤ grown.capacity
      split <;> omega
    · change grown.cur + _ < (grown.nodes.take grown.cur ++ nodes').length
      rw [List.length_drop] at hadvance
      rw [hlength]
      exact (Nat.add_lt_add_left hadvance _).trans_eq (Nat.add_sub_of_le hgrown.cur_lt.le)

/-- Reading keeps an array sound, also when it throws. -/
theorem read_sound (h : Sound s) (n : Nat) : Sound (read n s).2 := by
  unfold read
  split
  next => exact h
  next hn =>
    split
    next => exact h
    next node rest hnodes =>
      split
      next => exact h
      next hzero =>
        have hsize := h.shaped.size_le
        have hpos := h.position_le
        rw [getEnableReadSize] at hn
        have hcur := h.cur_lt
        have hloop := readLoop_le (fun n hn => h.node_size n (List.mem_of_mem_drop hn))
          (hnodes ▸ List.cons_ne_nil node rest) (Nat.mod_lt _ h.base_pos)
          (h.fits (n := n) (by omega))
        rw [hnodes] at hloop
        simp only [hloop]
        refine ⟨h.base_pos, h.node_size, h.capacity_le, ?_, h.size_le, ?_,
          h.cur_add_le (Nat.min_le_left _ _)⟩
        · change s.position + n ≤ s.size
          omega
        · change s.cur + min _ ((node :: rest).length - 1) < s.nodes.length
          rw [← hnodes, List.length_drop]
          omega

/-- Moving the position keeps an array sound, also when it throws. -/
theorem setPosition_sound (h : Sound s) (v : Nat) : Sound (setPosition v s).2 := by
  unfold setPosition
  split
  next => exact h
  next hv =>
    have hne : s.nodes ≠ [] := List.ne_nil_of_length_pos (Nat.zero_lt_of_lt h.cur_lt)
    have hlen := List.length_pos_of_ne_nil hne
    have hsize := h.size_le
    simp only [seekLoop_le h.node_size h.base_pos hne ((Nat.le_of_not_lt hv).trans h.capacity_le)]
    refine ⟨h.base_pos, h.node_size, h.capacity_le, ?_, ?_, ?_, ?_⟩
    · change v ≤ ite _ _ _
      split <;> omega
    · change ite _ _ _ ≤ s.capacity
      split <;> omega
    · change min _ _ < s.nodes.length
      omega
    · change min (v / s.baseSize) _ * s.baseSize ≤ v
      exact (Nat.mul_le_mul_right _ (Nat.min_le_left _ _)).trans (Nat.div_mul_le_self _ _)

/-- The regions of `get_enable_write_buffers` are inside of nodes. -/
theorem getEnableWriteBuffers_sound (h : Sound s) (len : Nat) :
    ∃ iovs s' start, getEnableWriteBuffers [] len s = (.ok (iovs, len), s') ∧ Sound s' ∧
      Lib.Covers s'.baseSize start len iovs ∧ start + len ≤ s'.nodes.length * s'.baseSize := by
  unfold getEnableWriteBuffers
  by_cases hzero : len = 0
  · subst hzero
    exact ⟨[], s, 0, rfl, h, Lib.Covers.nil 0, Nat.zero_le _⟩
  · obtain ⟨hgrown, hpos, hroom⟩ := h.grow len
    simp only [if_neg hzero]
    generalize s.addFreeCapacityTo len = grown at hgrown hpos hroom
    have hcap := hgrown.capacity_le
    have hstart := hgrown.start_le
    obtain ⟨iovs, hloop, hcovers⟩ := buffersLoop_covers
      (fun m hm => hgrown.node_size m (List.mem_of_mem_drop hm))
      (Nat.mod_lt grown.position hgrown.base_pos) (Nat.pos_of_ne_zero hzero)
      (hgrown.fits (n := len) (by omega)) grown.cur []
    rw [hloop]
    exact ⟨iovs, grown, _, rfl, hgrown, hcovers, by omega⟩

/-- Receiving keeps an array sound. -/
theorem receive_sound (h : Sound s) (len : Nat) (bytes : List UInt8) :
    Sound (receive len bytes s).2 := by
  obtain ⟨iovs, s', start, hbuffers, hs', hcovers, hfit⟩ := getEnableWriteBuffers_sound h len
  unfold receive
  simp only [hbuffers]
  split
  next => exact hs'
  next nodes hscatter =>
    obtain ⟨hlength, hsizes⟩ := scatter_sizes hs'.node_size hscatter
    have hstored := hs'.setNodes hlength hsizes
    split
    next => exact setPosition_sound hstored _
    next => exact hstored

/-- Every action keeps an array sound. -/
theorem act_sound (h : Sound s) (a : Action) : Sound (s.act a) := by
  cases a with
  | call c =>
      cases c with
      | clear junk => exact h.clear junk
      | cmd c =>
          cases c with
          | write buf =>
              obtain ⟨s', hwrite, hs'⟩ := write_sound h buf
              change Sound (step s (.write buf)).2
              simp only [step, hwrite]
              exact hs'
          | read n =>
              change Sound (step s (.read n)).2
              rw [step_read_snd]
              exact read_sound h n
          | setPosition v =>
              change Sound (step s (.setPosition v)).2
              rw [step_setPosition_snd]
              exact setPosition_sound h v
  | getEnableWriteBuffers len =>
      obtain ⟨iovs, s', start, hbuffers, hs', -⟩ := getEnableWriteBuffers_sound h len
      change Sound (getEnableWriteBuffers [] len s).2
      rw [hbuffers]
      exact hs'
  | receive len bytes => exact receive_sound h len bytes
  | setLittleEndian v => exact ⟨h.1, h.2, h.3, h.4, h.5, h.6, h.7⟩

end Calls

/-! ## When a read at a position throws -/

/-- The loop that skips blocks throws no `std::out_of_range` itself. -/
theorem skipLoop_not_outOfRange (position : Nat) (nodes : List Node) (what : String) :
    skipLoop position nodes ≠ .error (.outOfRange what) := by
  induction nodes generalizing position with
  | nil => simp [skipLoop]
  | cons node rest ih =>
      unfold skipLoop
      split
      next =>
        apply bind_ne_error (ih _)
        intro r heq
        cases heq
      next =>
        intro heq
        cases heq

/-- A read at a position throws exactly if its test says so. -/
theorem readAt_throws_iff (s : ByteArray) (size position : Nat) :
    (∃ what, readAt size position s = (.error (.outOfRange what), s)) ↔
      sizeSub s.size position < size := by
  unfold readAt
  constructor
  · rintro ⟨what, hthrows⟩
    by_contra hin
    rw [if_neg hin] at hthrows
    cases hskip : skipLoop position s.nodes with
    | error e =>
        rw [hskip] at hthrows
        cases hthrows
        exact skipLoop_not_outOfRange position s.nodes what hskip
    | ok found =>
        rw [hskip] at hthrows
        dsimp only at hthrows
        split at hthrows
        next => cases hthrows
        next =>
          split at hthrows
          next e hloop =>
            cases hthrows
            exact readLoop_not_outOfRange _ _ _ what hloop
          next => cases hthrows
  · intro hout
    exact ⟨_, if_pos hout⟩

/-! ## Bounds -/

/-- What is asked of `read(buf, size, position)`: it throws if the bytes reach behind `m_size`,
and else it returns; it leaves the object as it is. -/
def KeepsBounds (s : ByteArray) (size position : UInt64) : Prop :=
  (s.size < position.toNat + size.toNat →
    ∃ what, readAt size.toNat position.toNat s = (.error (.outOfRange what), s)) ∧
  (position.toNat + size.toNat ≤ s.size →
    ∃ bytes, readAt size.toNat position.toNat s = (.ok bytes, s))

/-- A position up to `m_size`, for no bytes only in front of the end of the last node, or bytes
that reach so far behind `m_size` that the wrapped difference is too small for them. -/
def InBounds (s : ByteArray) (size position : UInt64) : Prop :=
  if position.toNat ≤ s.size then
    size = 0 → position.toNat < s.nodes.length * s.baseSize
  else s.size + 2 ^ 64 < position.toNat + size.toNat

/-- The code's test agrees with the bounds, on a sound array. -/
theorem keepsBounds_iff_inBounds {s : ByteArray} (h : Sound s) (size position : UInt64) :
    s.KeepsBounds size position ↔ s.InBounds size position := by
  have hsize := h.shaped.size_le
  unfold KeepsBounds InBounds
  rw [readAt_throws_iff, sizeSub]
  split
  next hpos =>
    constructor
    · rintro ⟨-, hreturns⟩ hzero
      by_contra hin
      subst hzero
      obtain ⟨bytes, hread⟩ := hreturns hpos
      have hskip := skipLoop_behind h.node_size (Nat.le_of_not_lt hin)
      simp only [readAt, hskip] at hread
      split at hread
      next => cases hread
      next => cases hread
    · intro hzero
      refine ⟨fun hout => by omega, ?_⟩
      intro hin
      refine ⟨_, readAt_spec h.shaped hin ?_⟩
      by_cases hsz : size = 0
      · exact hzero hsz
      · have hpos' : 0 < size.toNat := by
          rw [Nat.pos_iff_ne_zero]
          intro hnat
          exact hsz (UInt64.toNat_inj.mp hnat)
        omega
  next hpos =>
    -- the difference wraps around
    have hlt := position.toNat_lt
    constructor
    · rintro ⟨hthrows, -⟩
      have hwrap := hthrows (by omega)
      omega
    · intro hwrap
      exact ⟨fun _ => by omega, fun hin => by omega⟩

theorem act_foldl_sound (junk : Nat → Nat → UInt8) {baseSize : Nat} (hbase : 0 < baseSize)
    (as : List Action) : Sound (as.foldl act (new junk baseSize)) :=
  Lib.foldl_keeps Sound (fun _ a h => act_sound h a) as (sound_new junk hbase)

/-- In every state that calls reach from a new object, and for every size and position, a read at
a position keeps its bounds exactly if the position is at most `m_size`, and for no bytes in front
of the end of the last node, or the wrapped difference is too small. -/
theorem keepsBounds_iff (junk : Nat → Nat → UInt8) {baseSize : Nat} (hbase : 1 ≤ baseSize)
    (as : List Action) (size position : UInt64) :
    (as.foldl act (new junk baseSize)).KeepsBounds size position ↔
      (as.foldl act (new junk baseSize)).InBounds size position :=
  keepsBounds_iff_inBounds (act_foldl_sound junk hbase as) size position

/-- Two bytes from position 1 of an object that holds three. -/
theorem keepsBounds_iff_two :
    (([.call (.cmd (.write [1, 2, 3]))] : List Action).foldl act
      (new (fun _ _ => 0) 2)).KeepsBounds 2 1 :=
  (keepsBounds_iff (fun _ _ => 0) (show 1 ≤ 2 by decide) [.call (.cmd (.write [1, 2, 3]))] 2 1).mpr
    (by unfold InBounds; rw [if_pos (by decide)]; intro h; cases h)

/-- In a new object the read of one byte at position 1 does not throw, and finds a byte that was
never written.  After `clear` the read of no bytes at the end of the only node runs into the null
pointer behind it. -/
theorem keepsBounds_fails :
    readAt 1 1 (new (fun _ _ => 7) 2) = (.ok [7], new (fun _ _ => 7) 2) ∧
      ¬(new (fun _ _ => 7) 2).KeepsBounds 1 1 ∧
      (readAt 0 2 (([.call (.clear fun _ _ => 0), .call (.cmd (.setPosition 2))] :
        List Action).foldl act (new (fun _ _ => 0) 2))).1 = .error .nullNode := by
  refine ⟨rfl, ?_, rfl⟩
  rw [keepsBounds_iff_inBounds (sound_new _ (by decide)), InBounds, if_neg (by decide)]
  decide

end ByteArray
end Tiger
