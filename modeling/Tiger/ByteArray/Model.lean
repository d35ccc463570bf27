import Tiger.Lib.Bytes

/-!
# ByteArray - a growable byte buffer on linked nodes

This module embeds `src/bytearray.h` and the storage half of
`src/bytearray.cc`.  A `ByteArray` owns a singly linked list of equally sized
heap blocks, a cursor `m_position` with the node `m_cur` that contains it, and
the counters `m_size` and `m_capacity`.

The chain of `next` pointers is a list: node `i` links to node `i + 1`, and the
last node's `next` is null.  Pointers to nodes are indices into that list.
Dereferencing a null node is the failure `nullNode`, a `memcpy` that leaves its
block is the failure `overrun`.

Byte counts are natural numbers.  The source computes the number of new nodes
with a `double` division and `ceil`; below `2 ^ 53` this is the exact rounded-up
quotient, which is what `addFreeCapacityTo` uses.
-/

namespace Tiger
namespace ByteArray

/-! ## Nodes -/

/-- A heap block of `size` bytes at `ptr`. -/
structure Node where
  ptr : List UInt8
  size : Nat
  ptr_length : ptr.length = size

/-- `new Node(s)`.  The bytes of `new char[s]` are indeterminate; `junk` says
what they happen to be. -/
def Node.new (junk : Nat → UInt8) (s : Nat) : Node where
  ptr := (List.range s).map junk
  size := s
  ptr_length := by simp

/-- What an operation can raise, or run into. -/
inductive Failure
  /-- `throw std::out_of_range(what)` -/
  | outOfRange (what : String)
  /-- a null node was dereferenced -/
  | nullNode
  /-- a `memcpy` left the bounds of its block or buffer -/
  | overrun
deriving DecidableEq, Repr

/-- `memcpy(ptr + off, src, src.size())` into a node. -/
def Node.store (node : Node) (off : Nat) (src : List UInt8) : Except Failure Node :=
  if h : off + src.length ≤ node.size then
    .ok
      { ptr := node.ptr.take off ++ src ++ node.ptr.drop (off + src.length)
        size := node.size
        ptr_length := by
          have hlen := node.ptr_length
          simp only [List.length_append, List.length_take, List.length_drop]
          omega }
  else .error .overrun

/-- `memcpy(dst, ptr + off, n)` out of a node. -/
def Node.load (node : Node) (off n : Nat) : Except Failure (List UInt8) :=
  if off + n ≤ node.size then .ok ((node.ptr.drop off).take n) else .error .overrun

end ByteArray

/-! ## State -/

/-- The fields of class `ByteArray`.  `endian` is `__TIGER_LITTLE_ENDIAN` or
`__TIGER_BIG_ENDIAN`; `junk i` is the indeterminate content of the `i`-th block
the allocator hands out. -/
structure ByteArray where
  baseSize : Nat
  position : Nat
  capacity : Nat
  size : Nat
  endian : Lib.Endian
  nodes : List ByteArray.Node
  cur : Nat
  junk : Nat → Nat → UInt8

namespace ByteArray

/-- `ByteArray(base_size)`: one node exists although `m_capacity` is zero. -/
def new (junk : Nat → Nat → UInt8) (baseSize : Nat) : ByteArray where
  baseSize := baseSize
  position := 0
  capacity := 0
  size := 0
  endian := .big
  nodes := [Node.new (junk 0) baseSize]
  cur := 0
  junk := junk

/-- A member function: it may throw, and the object keeps its state if so. -/
abbrev Op (α : Type) := ExceptT Failure (StateM ByteArray) α

/-- `get_enable_read_size()` -/
def getEnableReadSize (s : ByteArray) : Nat := s.size - s.position

/-- `get_free_capacity()` -/
def getFreeCapacity (s : ByteArray) : Nat := s.capacity - s.position

/-- `is_little_endian()` -/
def isLittleEndian (s : ByteArray) : Bool := s.endian == .little

/-- `set_little_endian(v)` -/
def setLittleEndian (s : ByteArray) (v : Bool) : ByteArray :=
  { s with endian := if v then .little else .big }

/-! ## Growing -/

/-- The allocation loop of `add_free_capacity_to`: append `cnt` fresh nodes. -/
def appendNodes (s : ByteArray) : Nat → ByteArray
  | 0 => s
  | cnt + 1 =>
      appendNodes
        { s with
          nodes := s.nodes ++ [Node.new (s.junk s.nodes.length) s.baseSize]
          capacity := s.capacity + s.baseSize }
        cnt

/-- `add_free_capacity_to(size)` -/
def addFreeCapacityTo (s : ByteArray) (size : Nat) : ByteArray :=
  let freeCap := s.getFreeCapacity
  if freeCap > size then s
  else
    let size := size - freeCap
    let cnt := (size + s.baseSize - 1) / s.baseSize + 1
    let s := appendNodes s cnt
    -- The allocation loop counts `cnt` down, so the source's last test sees zero.
    let cnt := 0
    if freeCap = 0 ∧ cnt > 0 then { s with cur := s.cur + 1 } else s

/-! ## Writing -/

/-- The `while (size > 0)` loop of `write`, over the nodes from `m_cur` on.
Returns these nodes after the copy and how far `m_cur` advanced. -/
def writeLoop (npos : Nat) (buf : List UInt8) :
    List Node → Except Failure (List Node × Nat)
  | [] => .error .nullNode
  | node :: rest =>
      let ncap := node.size - npos
      if buf.length ≤ ncap then do
        let node' ← node.store npos buf
        let advance := if node.size = npos + buf.length ∧ rest ≠ [] then 1 else 0
        return (node' :: rest, advance)
      else do
        let node' ← node.store npos (buf.take ncap)
        let (rest', advance) ← writeLoop 0 (buf.drop ncap) rest
        return (node' :: rest', advance + 1)

/-- `write(buf, size)` -/
def write (buf : List UInt8) : Op Unit := fun s =>
  if buf.length = 0 then (.ok (), s)
  else
    let s := s.addFreeCapacityTo buf.length
    let npos := s.position % s.baseSize
    match writeLoop npos buf (s.nodes.drop s.cur) with
    | .error e => (.error e, s)
    | .ok (nodes, advance) =>
        let position := s.position + buf.length
        (.ok (),
          { s with
            nodes := s.nodes.take s.cur ++ nodes
            cur := s.cur + advance
            position := position
            size := if position > s.size then position else s.size })

/-! ## Reading -/

/-- The `while (size > 0)` loop of `read`, over the nodes from `m_cur` on.
Returns the bytes copied and how far `m_cur` advanced. -/
def readLoop (npos size : Nat) : List Node → Except Failure (List UInt8 × Nat)
  | [] => .error .nullNode
  | node :: rest =>
      let ncap := node.size - npos
      if size ≤ ncap then do
        let bytes ← node.load npos size
        let advance := if node.size = npos + size ∧ rest ≠ [] then 1 else 0
        return (bytes, advance)
      else do
        let bytes ← node.load npos ncap
        let (bytes', advance) ← readLoop 0 (size - ncap) rest
        return (bytes ++ bytes', advance + 1)

/-- `read(buf, size)` -/
def read (size : Nat) : Op (List UInt8) := fun s =>
  if size > s.getEnableReadSize then (.error (.outOfRange "[read out of range]"), s)
  else
    let npos := s.position % s.baseSize
    match s.nodes.drop s.cur with
    | [] => (.error .nullNode, s)
    | node :: rest =>
        if size = 0 then (.ok [], s)
        else
          match readLoop npos size (node :: rest) with
          | .error e => (.error e, s)
          | .ok (bytes, advance) =>
              (.ok bytes, { s with position := s.position + size, cur := s.cur + advance })

/-! ## Seeking -/

/-- The search of `set_position` for the node that contains offset `v`. -/
def seekLoop (v : Nat) : List Node → Except Failure Nat
  | [] => .error .nullNode
  | node :: rest =>
      if v > node.size then do
        let advance ← seekLoop (v - node.size) rest
        return advance + 1
      else if v = node.size ∧ rest ≠ [] then return 1
      else return 0

/-- `set_position(v)` -/
def setPosition (v : Nat) : Op Unit := fun s =>
  if v > s.capacity then (.error (.outOfRange "[set position out of range]"), s)
  else
    let s := { s with position := v, size := if v > s.size then v else s.size }
    match seekLoop v s.nodes with
    | .error e => (.error e, s)
    | .ok cur => (.ok (), { s with cur := cur })

end ByteArray
end Tiger
