import Lamb.Library.Blocks
import Lamb.Library.ByteString
import Lamb.Library.DoubleQuotient

/-!
# The chunked byte array

A byte array is a chain of nodes of one size with a cursor. `m_cur` is kept as
the index of its node in the chain, `none` for the null pointer. Every copy and
every exposed `iovec` is a span inside one node, and the loops of the source that
move over the chain produce these spans. Following a null pointer and leaving a
node are outcomes of their own, next to the exceptions of the source.
-/

set_option autoImplicit false

namespace Lamb
open Lamb.ByteString

/-- How an operation may end other than by returning. The first two are C++
exceptions, the other two undefined behaviour. -/
inductive Stop where
  | outOfRange
  | lengthError
  | nullDeref
  | outOfBounds
  deriving DecidableEq, Repr

inductive Endian where
  | little
  | big
  deriving DecidableEq, Repr

structure Node where
  ptr : Bytes
  size : ℕ

/-- `len` bytes at `ptr+off` of the node with index `node`. -/
structure Span where
  node : ℕ
  off : ℕ
  len : ℕ
  deriving DecidableEq, Repr

/-- `raw i` is the content of the `i`-th block that `new char[]` returns, and
`allocs` counts these blocks. -/
structure ByteArray where
  baseSize : ℕ
  position : ℕ
  capacity : ℕ
  size : ℕ
  endian : Endian
  nodes : List Node
  cur : Option ℕ
  raw : ℕ → ℕ → UInt8
  allocs : ℕ

end Lamb

namespace Lamb.ByteArray
open Lamb.ByteString Lamb.Blocks Lamb.DoubleQuotient

abbrev Op (α : Type) := EStateM Stop ByteArray α

/-- `lamb_BYTE_ORDER` of the host. -/
def byteOrder : Endian := .little

def newNode (s : ℕ) (content : ℕ → UInt8) : Node where
  ptr := (List.range s).map content
  size := s

/-- `ByteArray::ByteArray(base_size)`. -/
def create (raw : ℕ → ℕ → UInt8) (base_size : ℕ) : ByteArray where
  baseSize := base_size
  position := 0
  capacity := base_size
  size := 0
  endian := .big
  nodes := [newNode base_size (raw 0)]
  cur := some 0
  raw := raw
  allocs := 1

def getPosition (s : ByteArray) : ℕ := s.position

def getSize (s : ByteArray) : ℕ := s.size

def getReadSize (s : ByteArray) : ℕ := s.size-s.position

def getCapacity (s : ByteArray) : ℕ := s.capacity-s.position

def isLittleEndian (s : ByteArray) : Bool := s.endian = .little

def setIsLittleEndian (val : Bool) : Op Unit := fun s =>
  .ok () { s with endian := if val then .little else .big }

def next (i : ℕ) (rest : List Node) : Option ℕ := if rest.isEmpty then none else some (i+1)

/-- The transfer loop shared by `write`, `read`, `getReadBuffers` and
`getWriteBuffers`, on the chain that starts at node `i`: the spans it visits for
`size` bytes from offset `npos` on, and the node where it leaves the cursor. -/
def walk : ℕ → List Node → ℕ → ℕ → Except Stop (List Span × Option ℕ)
  | _, [], _, _ => .error .nullDeref
  | i, n::rest, npos, size =>
    let ncap := n.size-npos
    if size = 0 then .ok ([], some i)
    else if size ≤ ncap then
      .ok ([⟨i, npos, size⟩], if n.size = npos+size then next i rest else some i)
    else
      match walk (i+1) rest 0 (size-ncap) with
      | .error e => .error e
      | .ok (spans, cur) => .ok (⟨i, npos, ncap⟩::spans, cur)

def walkFrom (s : ByteArray) (cur : Option ℕ) (npos size : ℕ) :
    Except Stop (List Span × Option ℕ) :=
  match cur with
  | none => .error .nullDeref
  | some i => walk i (s.nodes.drop i) npos size

/-- The `memcpy` calls out of the spans. -/
def load (nodes : List Node) : List Span → Except Stop Bytes
  | [] => .ok []
  | sp::rest =>
    match nodes[sp.node]? with
    | none => .error .nullDeref
    | some n =>
      if n.ptr.length < sp.off+sp.len then .error .outOfBounds else
      match load nodes rest with
      | .error e => .error e
      | .ok bytes => .ok (segment n.ptr sp.off sp.len ++ bytes)

/-- The `memcpy` calls into the spans. -/
def store : List Node → List Span → Bytes → Except Stop (List Node)
  | nodes, [], _ => .ok nodes
  | nodes, sp::rest, buf =>
    match nodes[sp.node]? with
    | none => .error .nullDeref
    | some n =>
      if n.ptr.length < sp.off+sp.len then .error .outOfBounds else
      store (nodes.set sp.node { n with ptr := overwrite n.ptr sp.off (buf.take sp.len) })
        rest (buf.drop sp.len)

def addCapacity (s : ByteArray) (size : ℕ) : ByteArray :=
  if size = 0 then s else
  let old_cap := s.getCapacity
  if size ≤ old_cap then s else
  let count := ceilQuotient (size-old_cap) s.baseSize
  let first := if count = 0 then none else some s.nodes.length
  { s with
    nodes := s.nodes ++ (List.range count).map fun i => newNode s.baseSize (s.raw (s.allocs+i))
    capacity := s.capacity+count*s.baseSize
    cur := if old_cap = 0 then first else s.cur
    allocs := s.allocs+count }

def write (buf : Bytes) : Op Unit := fun s =>
  if buf.length = 0 then .ok () s else
  let s := s.addCapacity buf.length
  match s.walkFrom s.cur (s.position % s.baseSize) buf.length with
  | .error e => .error e s
  | .ok (spans, cur) =>
    match store s.nodes spans buf with
    | .error e => .error e s
    | .ok nodes =>
      let position := s.position+buf.length
      .ok () { s with
        nodes := nodes
        cur := cur
        position := position
        size := if s.size < position then position else s.size }

def read (size : ℕ) : Op Bytes := fun s =>
  if s.getReadSize < size then .error .outOfRange s else
  match s.walkFrom s.cur (s.position % s.baseSize) size with
  | .error e => .error e s
  | .ok (spans, cur) =>
    match load s.nodes spans with
    | .error e => .error e s
    | .ok bytes => .ok bytes { s with cur := cur, position := s.position+size }

/-- The difference of two `size_t`. -/
def sub64 (a b : ℕ) : ℕ := if b ≤ a then a-b else a+2^64-b

/-- `read(buf, size, position) const`, which starts at the node of `m_cur`. -/
def readAt (s : ByteArray) (size position : ℕ) : Except Stop Bytes :=
  if sub64 s.size position < size then .error .outOfRange else
  match s.walkFrom s.cur (position % s.baseSize) size with
  | .error e => .error e
  | .ok (spans, _) => load s.nodes spans

/-- The rescan of the chain in `setPosition`. -/
def seek : ℕ → List Node → ℕ → Except Stop (Option ℕ)
  | _, [], _ => .error .nullDeref
  | i, n::rest, v =>
    if n.size < v then seek (i+1) rest (v-n.size)
    else .ok (if v = n.size then next i rest else some i)

def setPosition (v : ℕ) : Op Unit := fun s =>
  if s.capacity < v then .error .outOfRange s else
  let s := { s with position := v, size := if s.size < v then v else s.size }
  match seek 0 s.nodes v with
  | .error e => .error e s
  | .ok cur => .ok () { s with cur := cur }

def clear : Op Unit := fun s =>
  .ok () { s with
    position := 0
    size := 0
    capacity := s.baseSize
    nodes := s.nodes.take 1
    cur := some 0 }

/-- `toString`, over bytes that are in memory already. -/
def toString (s : ByteArray) : Except Stop Bytes :=
  if s.getReadSize = 0 then .ok [] else s.readAt s.getReadSize s.position

/-- `getReadBuffers(buffers, len)`: the count and the spans it appends. -/
def getReadBuffers (s : ByteArray) (len : ℕ) : Except Stop (ℕ × List Span) :=
  let len := if s.getReadSize < len then s.getReadSize else len
  if len = 0 then .ok (0, []) else
  match s.walkFrom s.cur (s.position % s.baseSize) len with
  | .error e => .error e
  | .ok (spans, _) => .ok (len, spans)

def getWriteBuffers (len : ℕ) : Op (ℕ × List Span) := fun s =>
  if len = 0 then .ok (0, []) s else
  let s := s.addCapacity len
  match s.walkFrom s.cur (s.position % s.baseSize) len with
  | .error e => .error e s
  | .ok (spans, _) => .ok (len, spans) s

/-- The loop of `readFromFile` over the rest of the file. A read that comes back
short sets `eof`, and so does the one that follows the last full block. -/
def readChunks : ℕ → Bytes → Op Unit
  | 0, _ => pure ()
  | fuel+1, file => fun s =>
    let chunk := file.take s.baseSize
    let rest := file.drop s.baseSize
    let eof := decide (file.length < s.baseSize)
    (do
      write chunk
      if eof then pure () else readChunks fuel rest) s

/-- `readFromFile`, `none` for a file that does not open. -/
def readFromFile (file : Option Bytes) : Op Bool :=
  match file with
  | none => pure false
  | some bytes => do
    readChunks (bytes.length+1) bytes
    pure true

end Lamb.ByteArray
