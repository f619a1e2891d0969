import Sese.Foundation.Queues
import Sese.Foundation.Outcome
import Sese.Util.Region

/-!
# The byte buffer

`io::AbstractByteBuffer`: a chain of nodes with a node and a position to write at and a node and
a position to read from. A node is named by its place in the chain, and `next` is the place
behind it. Copies that leave the memory of a node are faults.
-/
namespace Sese.Io

open Foundation

namespace AbstractByteBuffer

/-- `cap` octets of memory, `length` of them used. -/
structure Node where
  buffer : Bytes
  length : ℕ
  cap : ℕ
  deriving DecidableEq, Repr

def Node.new (buffer_size : ℕ) : Node where
  buffer := List.replicate buffer_size 0
  length := 0
  cap := buffer_size

def Node.data (node : Node) : Bytes := node.buffer.take node.length

end AbstractByteBuffer

open AbstractByteBuffer (Node)

structure AbstractByteBuffer where
  /-- The chain that starts with `root`. -/
  nodes : List Node
  currentWriteNode : ℕ
  currentWritePos : ℕ
  currentReadNode : ℕ
  currentReadPos : ℕ
  length : ℕ
  cap : ℕ
  factor : ℕ
  deriving DecidableEq, Repr

namespace AbstractByteBuffer

def new (base_size factor : ℕ) : AbstractByteBuffer where
  nodes := [.new base_size]
  currentWriteNode := 0
  currentWritePos := 0
  currentReadNode := 0
  currentReadPos := 0
  length := 0
  cap := base_size
  factor := factor

def deref (b : AbstractByteBuffer) (i : ℕ) : Except Fault Node :=
  match b.nodes[i]? with
  | some node => .ok node
  | none => .error .nullPointer

/-- A node of a copy: what is in use is copied, the rest of the memory is new. -/
def Node.copy (node : Node) : Except Fault Node := do
  let src ← load node.buffer 0 node.length
  let buffer ← store (Node.new node.cap).buffer 0 src
  .ok { buffer, length := node.length, cap := node.cap }

/-- The copy constructor. A pointer to a node other than the root is found again on the way
along the chain, every other pointer leads to the root. -/
def copy (src : AbstractByteBuffer) : Except Fault AbstractByteBuffer := do
  let nodes ← src.nodes.mapM Node.copy
  .ok { src with
    nodes := nodes
    currentWriteNode := if src.currentWriteNode < src.nodes.length then src.currentWriteNode else 0
    currentReadNode := if src.currentReadNode < src.nodes.length then src.currentReadNode else 0 }

def resetPos (b : AbstractByteBuffer) : AbstractByteBuffer :=
  { b with currentReadNode := 0, currentReadPos := 0 }

def eof (b : AbstractByteBuffer) : Except Fault Bool := do
  let node ← b.deref b.currentReadNode
  if node.length - b.currentReadPos ≠ 0 then .ok false
  else
    match b.nodes[b.currentReadNode + 1]? with
    | some next => .ok (next.length = 0)
    | none => .ok true

def getLength (b : AbstractByteBuffer) : Except Fault ℕ := do
  let node ← b.deref b.currentWriteNode
  .ok (b.length + node.length)

def getCapacity (b : AbstractByteBuffer) : ℕ := b.cap

/-- The sum over the nodes behind the read node; `i` is the place of the first of them. -/
def sizeBehind (b : AbstractByteBuffer) : ℕ → List Node → ℕ
  | _, [] => 0
  | i, node :: nodes =>
    (if i = b.currentWriteNode then b.currentWritePos else node.cap) + b.sizeBehind (i + 1) nodes

def getReadableSize (b : AbstractByteBuffer) : Except Fault ℕ := do
  let node ← b.deref b.currentReadNode
  .ok (node.length - b.currentReadPos +
    b.sizeBehind (b.currentReadNode + 1) (b.nodes.drop (b.currentReadNode + 1)))

/-- `freeCapacity`: how much is freed, and the buffer. `length` stays as it is. -/
def freeCapacity (b : AbstractByteBuffer) : ℕ × AbstractByteBuffer :=
  ((b.nodes.tail.map Node.cap).sum,
    { b with
      nodes := (b.nodes.take 1).map fun root => { root with length := 0 }
      currentWriteNode := 0
      currentWritePos := 0
      currentReadNode := 0
      currentReadPos := 0 })

/-- What the move constructor leaves of the buffer that it takes everything from. -/
def moved : AbstractByteBuffer where
  nodes := []
  currentWriteNode := 0
  currentWritePos := 0
  currentReadNode := 0
  currentReadPos := 0
  length := 0
  cap := 0
  factor := 0

/-- `swap`: the buffer and the other one. `factor` is not among what is swapped. -/
def swap (b other : AbstractByteBuffer) : AbstractByteBuffer × AbstractByteBuffer :=
  ({ other with factor := b.factor }, { b with factor := other.factor })

/-- The loop of `read` and of `peek`, on the nodes from the read node on: what was read, and the
node and the position that come next. -/
def readLoop (currentWriteNode : ℕ) :
    List Node → ℕ → ℕ → ℕ → Except Fault (Bytes × ℕ × ℕ)
  | [], _, _, _ => .error .nullPointer
  | node :: nodes, currentReadNode, currentReadPos, need_read =>
    let remaining := node.length - currentReadPos
    if need_read ≤ remaining then do
      let src ← load node.buffer currentReadPos need_read
      .ok (src, currentReadNode, currentReadPos + need_read)
    else do
      let src ← load node.buffer currentReadPos remaining
      if currentReadNode = currentWriteNode then
        .ok (src, currentReadNode, currentReadPos + remaining)
      else
        let (rest, i, pos) ← readLoop currentWriteNode nodes (currentReadNode + 1) 0
          (need_read - remaining)
        .ok (src ++ rest, i, pos)

def read (b : AbstractByteBuffer) (need_read : ℕ) : Except Fault (Bytes × AbstractByteBuffer) := do
  let (src, currentReadNode, currentReadPos) ← readLoop b.currentWriteNode
    (b.nodes.drop b.currentReadNode) b.currentReadNode b.currentReadPos need_read
  .ok (src, { b with currentReadNode := currentReadNode, currentReadPos := currentReadPos })

def peek (b : AbstractByteBuffer) (need_read : ℕ) : Except Fault Bytes := do
  let (src, _, _) ← readLoop b.currentWriteNode
    (b.nodes.drop b.currentReadNode) b.currentReadNode b.currentReadPos need_read
  .ok src

/-- The loop of `trunc`, which counts and does not look into the nodes. -/
def truncLoop (currentWriteNode : ℕ) : List Node → ℕ → ℕ → ℕ → Except Fault (ℕ × ℕ × ℕ)
  | [], _, _, _ => .error .nullPointer
  | node :: nodes, currentReadNode, currentReadPos, need_read =>
    let remaining := node.length - currentReadPos
    if need_read ≤ remaining then
      .ok (need_read, currentReadNode, currentReadPos + need_read)
    else if currentReadNode = currentWriteNode then
      .ok (remaining, currentReadNode, currentReadPos + remaining)
    else do
      let (rest, i, pos) ← truncLoop currentWriteNode nodes (currentReadNode + 1) 0
        (need_read - remaining)
      .ok (remaining + rest, i, pos)

def trunc (b : AbstractByteBuffer) (need_read : ℕ) : Except Fault (ℕ × AbstractByteBuffer) := do
  let (actual_read, currentReadNode, currentReadPos) ← truncLoop b.currentWriteNode
    (b.nodes.drop b.currentReadNode) b.currentReadNode b.currentReadPos need_read
  .ok (actual_read,
    { b with currentReadNode := currentReadNode, currentReadPos := currentReadPos })

/-- The loop of `write`. Every pass but the first one takes an octet, unless new nodes have no
memory. -/
def writeLoop : ℕ → AbstractByteBuffer → Bytes → Except Fault (ℕ × AbstractByteBuffer)
  | 0, _, _ => .error .endlessLoop
  | fuel + 1, b, data => do
    let node ← b.deref b.currentWriteNode
    let remaining := node.cap - node.length
    if data.length ≤ remaining then
      let buffer ← store node.buffer b.currentWritePos data
      let node := { node with buffer, length := node.length + data.length }
      .ok (data.length,
        { b with
          nodes := b.nodes.set b.currentWriteNode node
          currentWritePos := b.currentWritePos + data.length })
    else
      let buffer ← store node.buffer b.currentWritePos (data.take remaining)
      let node := { node with buffer, length := node.cap }
      let next : AbstractByteBuffer := { b with
        -- what was behind the write node is not reached any more
        nodes := b.nodes.take b.currentWriteNode ++ [node, .new b.factor]
        length := b.length + node.cap
        cap := b.cap + b.factor
        currentWritePos := 0
        currentWriteNode := b.currentWriteNode + 1 }
      let (actual_write, b) ← writeLoop fuel next (data.drop remaining)
      .ok (remaining + actual_write, b)

def write (b : AbstractByteBuffer) (data : Bytes) : Except Fault (ℕ × AbstractByteBuffer) :=
  writeLoop (data.length + 2) b data

end AbstractByteBuffer
end Sese.Io
