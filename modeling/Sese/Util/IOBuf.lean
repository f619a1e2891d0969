import Sese.Io.InputStream

/-!
# Chained buffers

`IOBuf`, a list of the nodes that were received. The nodes are kept in two parts: those
before the iterator `cur`, and those from it on. When `cur` is the end iterator, a node
that is pushed goes before it and is never read.
-/
namespace Sese

/-- `IOBufNode`: the octets it was filled with, and how many of them were read. -/
structure IOBufNode where
  data : Bytes
  read : ℕ := 0
  deriving DecidableEq

namespace IOBufNode

def getReadableSize (node : IOBufNode) : ℕ := node.data.length - node.read

def unread (node : IOBufNode) : Bytes := node.data.drop node.read

def advance (node : IOBufNode) (n : ℕ) : IOBufNode := { node with read := node.read + n }

theorem length_unread (node : IOBufNode) : node.unread.length = node.getReadableSize := by
  rw [unread, List.length_drop, getReadableSize]

theorem unread_advance (node : IOBufNode) (n : ℕ) :
    (node.advance n).unread = node.unread.drop n := by
  rw [unread, unread, advance, List.drop_drop]

end IOBufNode

structure IOBuf where
  /-- The nodes before `cur`. -/
  passed : List IOBufNode := []
  /-- The nodes from `cur` on. -/
  nodes : List IOBufNode := []
  total : ℕ := 0
  readed : ℕ := 0
  deriving DecidableEq

namespace IOBuf

def push (buf : IOBuf) (node : IOBufNode) : IOBuf :=
  let buf := { buf with total := buf.total + node.data.length }
  if buf.passed.isEmpty && buf.nodes.isEmpty then { buf with nodes := [node] }
  else if buf.nodes.isEmpty then { buf with passed := buf.passed ++ [node] }
  else { buf with nodes := buf.nodes ++ [node] }

def clear (_ : IOBuf) : IOBuf := {}

def getReadableSize (buf : IOBuf) : ℕ := buf.total - buf.readed

/-- The loop of `read`: the octets, the nodes that `cur` moves over, and those from `cur`
on. -/
def readLoop : ℕ → List IOBufNode → Bytes × List IOBufNode × List IOBufNode
  | _, [] => ([], [], [])
  | length, node :: nodes =>
    if length ≤ node.getReadableSize then
      (node.unread.take length, [], node.advance length :: nodes)
    else
      let r := readLoop (length - node.getReadableSize) nodes
      (node.unread ++ r.1, node.advance node.getReadableSize :: r.2.1, r.2.2)

/-- `read`. An iterator that is not at a node is used as if it were at one. -/
def read (buf : IOBuf) (length : ℕ) : Except Fault (Bytes × IOBuf) :=
  if buf.nodes.isEmpty then .error .nullPointer
  else
    let r := readLoop length buf.nodes
    .ok (r.1, { buf with
      passed := buf.passed ++ r.2.1
      nodes := r.2.2
      readed := buf.readed + r.1.length })

def unread (buf : IOBuf) : Bytes := buf.nodes.flatMap IOBufNode.unread

instance : Io.InputStream IOBuf where
  read := read
  left buf := buf.unread.length

/-- `cur` is at a node, and `u` is what is to be read from there on. -/
structure Holds (buf : IOBuf) (u : Bytes) : Prop where
  at_node : buf.nodes ≠ []
  unread_eq : buf.unread = u
  total_eq : buf.total = buf.readed + u.length

/-- `cur` is the end iterator, and everything was read. -/
structure Spent (buf : IOBuf) : Prop where
  at_end : buf.nodes = []
  total_eq : buf.total = buf.readed

theorem Holds.getReadableSize {buf : IOBuf} {u : Bytes} (h : buf.Holds u) :
    buf.getReadableSize = u.length := by
  rw [IOBuf.getReadableSize, h.total_eq, Nat.add_sub_cancel_left]

theorem Spent.getReadableSize {buf : IOBuf} (h : buf.Spent) : buf.getReadableSize = 0 := by
  rw [IOBuf.getReadableSize, h.total_eq, Nat.sub_self]

theorem readLoop_le {nodes : List IOBufNode} {n : ℕ} (hne : nodes ≠ [])
    (hn : n ≤ (nodes.flatMap IOBufNode.unread).length) :
    (readLoop n nodes).1 = (nodes.flatMap IOBufNode.unread).take n ∧
      (readLoop n nodes).2.2 ≠ [] ∧
      (readLoop n nodes).2.2.flatMap IOBufNode.unread =
        (nodes.flatMap IOBufNode.unread).drop n := by
  induction nodes generalizing n with
  | nil => exact absurd rfl hne
  | cons node nodes ih =>
    rw [List.flatMap_cons, List.length_append, node.length_unread] at hn
    by_cases hle : n ≤ node.getReadableSize
    · have hlen : n ≤ node.unread.length := by rwa [node.length_unread]
      simp only [readLoop, if_pos hle, List.flatMap_cons, IOBufNode.unread_advance]
      refine ⟨(List.take_append_of_le_length hlen).symm, List.cons_ne_nil _ _, ?_⟩
      rw [List.drop_append_of_le_length hlen]
    · have hnodes : nodes ≠ [] := by
        rintro rfl
        rw [List.flatMap_nil, List.length_nil] at hn
        omega
      obtain ⟨hgot, hrest, hunread⟩ := ih hnodes (n := n - node.getReadableSize) (by omega)
      have hlen : node.unread.length ≤ n := by
        rw [node.length_unread]
        omega
      simp only [readLoop, if_neg hle, List.flatMap_cons]
      refine ⟨?_, hrest, ?_⟩
      · rw [hgot, List.take_append, List.take_of_length_le hlen, node.length_unread]
      · rw [hunread, List.drop_append, List.drop_eq_nil_of_le hlen, List.nil_append,
          node.length_unread]

theorem readLoop_append (n : ℕ) (nodes : List IOBufNode) :
    (readLoop n nodes).1 ++ (readLoop n nodes).2.2.flatMap IOBufNode.unread =
      nodes.flatMap IOBufNode.unread := by
  induction nodes generalizing n with
  | nil => rfl
  | cons node nodes ih =>
    simp only [readLoop, List.flatMap_cons]
    split
    · rw [List.flatMap_cons, IOBufNode.unread_advance, ← List.append_assoc,
        List.take_append_drop]
    · rw [List.append_assoc, ih]

theorem readLoop_gt {nodes : List IOBufNode} {n : ℕ}
    (hn : (nodes.flatMap IOBufNode.unread).length < n) :
    (readLoop n nodes).1 = nodes.flatMap IOBufNode.unread ∧ (readLoop n nodes).2.2 = [] := by
  induction nodes generalizing n with
  | nil => exact ⟨rfl, rfl⟩
  | cons node nodes ih =>
    rw [List.flatMap_cons, List.length_append, node.length_unread] at hn
    have hsize : ¬ n ≤ node.getReadableSize := by omega
    obtain ⟨hgot, hrest⟩ := ih (n := n - node.getReadableSize) (by omega)
    simp only [readLoop, if_neg hsize, hgot, List.flatMap_cons]
    exact ⟨trivial, hrest⟩

theorem read_eq {buf : IOBuf} {n : ℕ} (h : buf.nodes ≠ []) :
    Io.InputStream.read buf n = .ok ((readLoop n buf.nodes).1, { buf with
      passed := buf.passed ++ (readLoop n buf.nodes).2.1
      nodes := (readLoop n buf.nodes).2.2
      readed := buf.readed + (readLoop n buf.nodes).1.length }) := by
  have hne : buf.nodes.isEmpty = false := by simpa using h
  change IOBuf.read buf n = _
  rw [IOBuf.read, hne]
  rfl

/-- A chained buffer is a stream of the octets it holds. -/
theorem reads : Io.Reads Holds Spent where
  read_le {buf u n} h hn := by
    have hlen : n ≤ (buf.nodes.flatMap IOBufNode.unread).length := by
      change n ≤ buf.unread.length
      rw [h.unread_eq]
      exact hn
    obtain ⟨hgot, hrest, hunread⟩ := readLoop_le h.at_node hlen
    have hu : buf.nodes.flatMap IOBufNode.unread = u := h.unread_eq
    rw [hu] at hgot hunread
    refine ⟨_, (read_eq h.at_node).trans (by rw [hgot]), ?_⟩
    constructor
    · exact hrest
    · exact hunread
    · simp only [h.total_eq, List.length_take, List.length_drop]
      omega
  read_end {buf n} h hn := by
    have hu : buf.nodes.flatMap IOBufNode.unread = [] := h.unread_eq
    obtain ⟨hgot, hrest⟩ := @readLoop_gt buf.nodes n (by rwa [hu])
    rw [hu] at hgot
    refine ⟨_, (read_eq h.at_node).trans (by rw [hgot]), ?_⟩
    constructor
    · exact hrest
    · simpa using h.total_eq
  left_le {buf u} h := by
    change u.length ≤ buf.unread.length
    rw [h.unread_eq]

theorem holds_push_empty (node : IOBufNode) (hread : node.read = 0) :
    (({} : IOBuf).push node).Holds node.data where
  at_node := List.cons_ne_nil _ _
  unread_eq := by simp [push, unread, IOBufNode.unread, hread]
  total_eq := rfl

theorem Holds.push {buf : IOBuf} {u : Bytes} (h : buf.Holds u) (node : IOBufNode)
    (hread : node.read = 0) : (buf.push node).Holds (u ++ node.data) := by
  have hne : buf.nodes.isEmpty = false := by simpa using h.at_node
  have hpush : buf.push node =
      { buf with total := buf.total + node.data.length, nodes := buf.nodes ++ [node] } := by
    simp [IOBuf.push, hne]
  rw [hpush]
  constructor
  · simp
  · have hu := h.unread_eq
    simp only [IOBuf.unread, List.flatMap_append] at hu ⊢
    rw [hu]
    simp [IOBufNode.unread, hread]
  · simp only [h.total_eq, List.length_append]
    omega

end IOBuf
end Sese
