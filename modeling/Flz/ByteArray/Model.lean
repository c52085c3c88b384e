import Flz.Lib.Overwrite

/-! # The block chain behind `ByteArray`

`src/bytearray.cc` and `include/bytearray.h`. The data live in a chain of blocks of
`m_baseSize` bytes; `m_cur` points at the block of the cursor and is null at the end of
the last block. A chain is the list of its nodes from `m_root` on, and a `Node*` into it
is the index of the node, `none` standing for the null pointer.
-/
namespace Flz
open Lib

/-- The values `FLZ_LITTLE_ENDIAN` and `FLZ_BIG_ENDIAN` of `my_endian.h`. -/
inductive Endian
  | little
  | big
  deriving DecidableEq, Repr

/-- What ends an operation before its return: a thrown `std::out_of_range`, the
`std::length_error` of a `std::string`, or an access that C++ gives no meaning to. -/
inductive Trap
  | outOfRange (what : String)
  | lengthError
  | nullNode
  | outOfBlock
  deriving DecidableEq, Repr

/-- A block; `Node::size` is the length of the memory behind `Node::ptr`. -/
structure Node where
  ptr : List UInt8
  deriving DecidableEq, Repr

def Node.size (n : Node) : ℕ := n.ptr.length

/-- `new char[s]` is not initialised: the block holds what the heap held. -/
def Node.alloc (heap : ℕ → UInt8) (s : ℕ) : Node := ⟨(List.range s).map heap⟩

/-- `memcpy(ptr + npos, buf, size)`. -/
def Node.store (n : Node) (npos : ℕ) (buf : List UInt8) : Except Trap Node :=
  if npos + buf.length ≤ n.size then .ok ⟨overwrite n.ptr npos buf⟩ else .error .outOfBlock

/-- `memcpy(buf, ptr + npos, size)`. -/
def Node.load (n : Node) (npos size : ℕ) : Except Trap (List UInt8) :=
  if npos + size ≤ n.size then .ok ((n.ptr.drop npos).take size) else .error .outOfBlock

/-- `heap` is not a member of the class: it is the content of the memory that the next
allocations hand out, so that no result may rest on what a fresh block holds. -/
structure ByteArray where
  baseSize : ℕ
  position : ℕ
  capacity : ℕ
  size : ℕ
  endian : Endian
  nodes : List Node
  cur : Option ℕ
  heap : ℕ → UInt8

/-- `iovec`: `len` bytes from `base` on inside the block with index `node`. -/
structure IoVec where
  node : ℕ
  base : ℕ
  len : ℕ
  deriving DecidableEq, Repr

/-- A member function: it returns or throws, and leaves the object in some state. -/
abbrev Access (α : Type) := EStateM Trap ByteArray α

namespace ByteArray

/-- The constructor. -/
def new (baseSize : ℕ) (heap : ℕ → UInt8) : ByteArray where
  baseSize := baseSize
  position := 0
  capacity := baseSize
  size := 0
  endian := .big
  nodes := [Node.alloc heap baseSize]
  cur := some 0
  heap := fun j => heap (baseSize + j)

def getCapacity (s : ByteArray) : ℕ := s.capacity - s.position
def getReadSize (s : ByteArray) : ℕ := s.size - s.position

def isLittleEndian (s : ByteArray) : Bool := s.endian = .little

def setIsLittleEndian (val : Bool) (s : ByteArray) : ByteArray :=
  { s with endian := if val then .little else .big }

/-- The pointer reached from `m_root` by `k` steps along `next`. -/
def nodeAt (nodes : List Node) (k : ℕ) : Option ℕ := if k < nodes.length then some k else none

/-- The blocks that the loop of `addCapacity` links in. -/
def allocNodes (baseSize : ℕ) : ℕ → (ℕ → UInt8) → List Node
  | 0, _ => []
  | count + 1, heap =>
    Node.alloc heap baseSize :: allocNodes baseSize count (fun j => heap (baseSize + j))

/-- `ceil(1.0 * size / m_baseSize)`. -/
def blockCount (size baseSize : ℕ) : ℕ := (size + baseSize - 1) / baseSize

/-- The second half of `addCapacity`: `count` blocks are linked in behind the last one, and
a null `m_cur` is set to the first of them. -/
def link (count : ℕ) (s : ByteArray) : ByteArray where
  baseSize := s.baseSize
  position := s.position
  capacity := s.capacity + count * s.baseSize
  size := s.size
  endian := s.endian
  nodes := s.nodes ++ allocNodes s.baseSize count s.heap
  cur :=
    if s.getCapacity = 0 then
      nodeAt (s.nodes ++ allocNodes s.baseSize count s.heap) s.nodes.length
    else s.cur
  heap := fun j => s.heap (count * s.baseSize + j)

def addCapacity (size : ℕ) (s : ByteArray) : ByteArray :=
  if size = 0 then s
  else if s.getCapacity ≥ size then s
  else link (blockCount (size - s.getCapacity) s.baseSize) s

/-- The loop of `write` from the block `m_cur` on, which is the head of the chain: the
chain after the stores, and by how many blocks `m_cur` moves. -/
def writeLoop : List Node → ℕ → List UInt8 → Except Trap (List Node × ℕ)
  | [], _, _ => .error .nullNode
  | n :: rest, npos, buf =>
    let ncap := n.size - npos
    if ncap ≥ buf.length then do
      let n' ← n.store npos buf
      return (n' :: rest, if n.size = npos + buf.length then 1 else 0)
    else do
      let n' ← n.store npos (buf.take ncap)
      let (rest', k) ← writeLoop rest 0 (buf.drop ncap)
      return (n' :: rest', k + 1)

def write (buf : List UInt8) : Access Unit := fun s =>
  if buf.length = 0 then .ok () s
  else
    let s := s.addCapacity buf.length
    match s.cur with
    | none => .error .nullNode s
    | some i =>
      match writeLoop (s.nodes.drop i) (s.position % s.baseSize) buf with
      | .error e => .error e s
      | .ok (chain, k) =>
        let position := s.position + buf.length
        .ok () { s with
          nodes := s.nodes.take i ++ chain
          cur := nodeAt s.nodes (i + k)
          position := position
          size := if position > s.size then position else s.size }

/-- The loop of `read`; `m_cur->size` is read before the first test of `size > 0`. -/
def readLoop : List Node → ℕ → ℕ → Except Trap (List UInt8 × ℕ)
  | [], _, _ => .error .nullNode
  | n :: rest, npos, size =>
    let ncap := n.size - npos
    if size = 0 then .ok ([], 0)
    else if ncap ≥ size then do
      let bytes ← n.load npos size
      return (bytes, if n.size = npos + size then 1 else 0)
    else do
      let bytes ← n.load npos ncap
      let (more, k) ← readLoop rest 0 (size - ncap)
      return (bytes ++ more, k + 1)

def read (size : ℕ) : Access (List UInt8) := fun s =>
  if size > s.getReadSize then .error (.outOfRange "not enough len") s
  else
    match s.cur with
    | none => .error .nullNode s
    | some i =>
      match readLoop (s.nodes.drop i) (s.position % s.baseSize) size with
      | .error e => .error e s
      | .ok (bytes, k) =>
        .ok bytes { s with position := s.position + size, cur := nodeAt s.nodes (i + k) }

/-- The walk of `setPosition` from `m_root`: the number of `next` steps to the new `m_cur`. -/
def seek : List Node → ℕ → Except Trap ℕ
  | [], _ => .error .nullNode
  | n :: rest, v =>
    if v > n.size then do
      let k ← seek rest (v - n.size)
      return k + 1
    else .ok (if v = n.size then 1 else 0)

def setPosition (v : ℕ) : Access Unit := fun s =>
  if v > s.capacity then .error (.outOfRange "set_position out of range") s
  else
    match seek s.nodes v with
    | .error e => .error e s
    | .ok k =>
      .ok () { s with
        position := v
        size := if v > s.size then v else s.size
        cur := nodeAt s.nodes k }

/-- All blocks but the root are deleted. -/
def clear : Access Unit := fun s =>
  .ok () { s with
    position := 0
    size := 0
    capacity := s.baseSize
    nodes := s.nodes.take 1
    cur := nodeAt s.nodes 0 }

/-- The loop of `getWriteBuffers` and `getReadBuffers` from block `i` on. -/
def bufferLoop : List Node → ℕ → ℕ → ℕ → Except Trap (List IoVec)
  | [], _, _, _ => .error .nullNode
  | n :: rest, i, npos, len =>
    let ncap := n.size - npos
    if ncap ≥ len then .ok [⟨i, npos, len⟩]
    else do
      let more ← bufferLoop rest (i + 1) 0 (len - ncap)
      return ⟨i, npos, ncap⟩ :: more

def getWriteBuffers (len : ℕ) : Access (ℕ × List IoVec) := fun s =>
  if len = 0 then .ok (0, []) s
  else
    let s := s.addCapacity len
    match s.cur with
    | none => .error .nullNode s
    | some i =>
      match bufferLoop (s.nodes.drop i) i (s.position % s.baseSize) len with
      | .error e => .error e s
      | .ok iovs => .ok (len, iovs) s

end ByteArray
end Flz
