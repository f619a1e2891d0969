import Sese.Foundation.Runs
import Sese.Util.IOBuf

/-!
# Chained buffers as byte queues

`peek` and `trunc` of `IOBuf`, and the sequences of all its operations. The queue that a
buffer stands for is the string of the octets that were pushed and not read yet.
-/
namespace Sese

open Foundation

namespace IOBuf

/-- The loop of `peek`: `node` is the copy that it makes of a node, and a node after the first
one is looked at from its first octet on. -/
def peekLoop : ℕ → IOBufNode → List IOBufNode → Bytes
  | length, node, [] =>
    if length ≤ node.getReadableSize then node.unread.take length else node.unread
  | length, node, next :: rest =>
    if length ≤ node.getReadableSize then node.unread.take length
    else node.unread ++ peekLoop (length - node.getReadableSize) { next with read := 0 } rest

def peek (buf : IOBuf) (length : ℕ) : Except Fault Bytes :=
  match buf.nodes with
  | [] => .error .nullPointer
  | node :: rest => .ok (peekLoop length node rest)

/-- The loop of `trunc`: the result, the nodes that `cur` moves over, and those from `cur` on.
It is asked whether `cur` is the end iterator before `cur` moves on, when it is at a node. -/
def truncLoop : ℕ → List IOBufNode → Except Fault (ℕ × List IOBufNode × List IOBufNode)
  | _, [] => .error .nullPointer
  | length, node :: nodes =>
    if length ≤ node.getReadableSize then .ok (length, [], node.advance length :: nodes)
    else
      match truncLoop (length - node.getReadableSize) nodes with
      | .error fault => .error fault
      | .ok (real, done, rest) =>
        .ok (node.getReadableSize + real, node.advance node.getReadableSize :: done, rest)

def trunc (buf : IOBuf) (length : ℕ) : Except Fault (ℕ × IOBuf) :=
  match truncLoop length buf.nodes with
  | .error fault => .error fault
  | .ok (real, done, rest) => .ok (real, { buf with
      passed := buf.passed ++ done
      nodes := rest
      readed := buf.readed + real })

inductive Operation
  | push (node : IOBufNode)
  | read (length : ℕ)
  | peek (length : ℕ)
  | trunc (length : ℕ)
  | clear
  deriving DecidableEq

structure Answer where
  delivered : Bytes := []
  returned : ℕ := 0
  deriving DecidableEq

def perform (buf : IOBuf) : Operation → Except Fault (Answer × IOBuf)
  | .push node => .ok ({}, buf.push node)
  | .read length => do
    let (got, buf) ← buf.read length
    return (⟨got, got.length⟩, buf)
  | .peek length => do
    let got ← buf.peek length
    return (⟨got, got.length⟩, buf)
  | .trunc length => do
    let (real, buf) ← buf.trunc length
    return (⟨[], real⟩, buf)
  | .clear => .ok ({}, buf.clear)

namespace Operation

/-- The answer of a queue that holds `q`. -/
def answer (q : Bytes) : Operation → Answer
  | .push _ => {}
  | .read length => ⟨q.take length, min length q.length⟩
  | .peek length => ⟨q.take length, min length q.length⟩
  | .trunc length => ⟨[], min length q.length⟩
  | .clear => {}

/-- What the queue holds afterwards. -/
def next (q : Bytes) : Operation → Bytes
  | .push node => q ++ node.unread
  | .read length => q.drop length
  | .peek _ => q
  | .trunc length => q.drop length
  | .clear => []

end Operation

/-- A node that is pushed was filled, and its producer did not read more than is in it. -/
def Filled (_ : IOBuf) : Operation → Prop
  | .push node => node.read ≤ node.data.length
  | _ => True

/-- A node is pushed before anything of it was read, the buffer is read while `cur` is at a
node, and no more than there is is skipped. -/
def Orderly (buf : IOBuf) : Operation → Prop
  | .push node => node.read = 0
  | .read _ => buf.nodes ≠ []
  | .peek _ => buf.nodes ≠ []
  | .trunc length => buf.nodes ≠ [] ∧ length ≤ buf.unread.length
  | .clear => True

/-- What is known of a buffer that stands for the queue `q`. When `cur` is the end iterator,
what was pushed later is in `q` and will not be read. -/
structure Queued (buf : IOBuf) (q : Bytes) : Prop where
  total_eq : buf.total = buf.readed + q.length
  unread_eq : buf.nodes ≠ [] → buf.unread = q
  empty : buf.passed = [] → buf.nodes = [] → q = []
  fresh : ∀ node ∈ buf.nodes.tail, node.read = 0

theorem Queued.getReadableSize {buf : IOBuf} {q : Bytes} (h : buf.Queued q) :
    buf.getReadableSize = q.length := by
  rw [IOBuf.getReadableSize, h.total_eq, Nat.add_sub_cancel_left]

theorem queued_nil : ({} : IOBuf).Queued [] where
  total_eq := rfl
  unread_eq := fun h => absurd rfl h
  empty := fun _ _ => rfl
  fresh := by simp

theorem Queued.push {buf : IOBuf} {q : Bytes} (h : buf.Queued q) {node : IOBufNode}
    (hread : node.read = 0) : (buf.push node).Queued (q ++ node.unread) := by
  have hnode : node.unread = node.data := by rw [IOBufNode.unread, hread, List.drop_zero]
  rw [hnode]
  have htotal : buf.total + node.data.length = buf.readed + (q ++ node.data).length := by
    rw [h.total_eq, List.length_append, Nat.add_assoc]
  rcases hnodes : buf.nodes with _ | ⟨first, rest⟩
  · rcases hpassed : buf.passed with _ | ⟨first, rest⟩
    · obtain rfl := h.empty hpassed hnodes
      have hpush : buf.push node =
          { buf with total := buf.total + node.data.length, nodes := [node] } := by
        simp [IOBuf.push, hnodes, hpassed]
      rw [hpush]
      constructor
      · exact htotal
      · intro _
        simp [IOBuf.unread, hnode]
      · simp
      · simp
    · have hpush : buf.push node =
          { buf with total := buf.total + node.data.length, passed := buf.passed ++ [node] } := by
        simp [IOBuf.push, hnodes, hpassed]
      rw [hpush]
      constructor
      · exact htotal
      · exact fun hne => absurd hnodes hne
      · simp
      · simp [hnodes]
  · have hpush : buf.push node =
        { buf with total := buf.total + node.data.length, nodes := buf.nodes ++ [node] } := by
      simp [IOBuf.push, hnodes]
    have hunread : buf.unread = q := h.unread_eq (by simp [hnodes])
    rw [hpush]
    constructor
    · exact htotal
    · intro _
      rw [← hunread]
      simp [IOBuf.unread, hnode]
    · simp
    · have hfresh := h.fresh
      rw [hnodes] at hfresh
      intro later hmem
      rw [hnodes] at hmem
      simp only [List.cons_append, List.tail_cons, List.mem_append, List.mem_singleton] at hmem
      rcases hmem with hmem | rfl
      · exact hfresh later hmem
      · exact hread

theorem readLoop_fresh {nodes : List IOBufNode} (n : ℕ)
    (h : ∀ node ∈ nodes.tail, node.read = 0) :
    ∀ node ∈ (readLoop n nodes).2.2.tail, node.read = 0 := by
  induction nodes generalizing n with
  | nil => exact h
  | cons node nodes ih =>
    simp only [readLoop]
    split
    · exact h
    · exact ih _ fun later hmem => h later (List.mem_of_mem_tail hmem)

theorem Queued.read {buf : IOBuf} {q : Bytes} (h : buf.Queued q) (hne : buf.nodes ≠ []) (n : ℕ) :
    ∃ buf' : IOBuf, buf.read n = .ok (q.take n, buf') ∧ buf'.Queued (q.drop n) := by
  have hunread : buf.nodes.flatMap IOBufNode.unread = q := h.unread_eq hne
  have hgot : (readLoop n buf.nodes).1 = q.take n := by
    by_cases hn : n ≤ q.length
    · rw [(readLoop_le hne (by rwa [hunread])).1, hunread]
    · rw [(@readLoop_gt buf.nodes n (by rw [hunread]; omega)).1, hunread,
        List.take_of_length_le (by omega)]
  have hrest : (readLoop n buf.nodes).2.2.flatMap IOBufNode.unread = q.drop n := by
    have happend := readLoop_append n buf.nodes
    rw [hunread, hgot] at happend
    exact List.append_cancel_left (happend.trans (List.take_append_drop n q).symm)
  refine ⟨_, (read_eq hne).trans (by rw [hgot]), ?_⟩
  constructor
  · simp only [h.total_eq, List.length_take, List.length_drop]
    omega
  · intro _
    exact hrest
  · intro _ hend
    rw [← hrest]
    exact congrArg (List.flatMap IOBufNode.unread) hend
  · exact readLoop_fresh n h.fresh

theorem peekLoop_eq {rest : List IOBufNode} (n : ℕ) (node : IOBufNode)
    (h : ∀ later ∈ rest, later.read = 0) :
    peekLoop n node rest = (readLoop n (node :: rest)).1 := by
  induction rest generalizing n node with
  | nil =>
    simp only [peekLoop, readLoop]
    split
    · rfl
    · rw [List.append_nil]
  | cons next rest ih =>
    have hnext : { next with read := 0 } = next := by
      rw [← h next List.mem_cons_self]
    simp only [peekLoop, hnext]
    rw [readLoop]
    split
    · rfl
    · rw [ih _ _ fun later hmem => h later (List.mem_cons_of_mem next hmem)]

theorem Queued.peek {buf : IOBuf} {q : Bytes} (h : buf.Queued q) (hne : buf.nodes ≠ []) (n : ℕ) :
    buf.peek n = .ok (q.take n) := by
  obtain ⟨buf', hread, -⟩ := h.read hne n
  have hgot : (readLoop n buf.nodes).1 = q.take n := by
    have heq := (read_eq hne).symm.trans hread
    simp only [Except.ok.injEq, Prod.mk.injEq] at heq
    exact heq.1
  have hfresh := h.fresh
  cases hnodes : buf.nodes with
  | nil => exact absurd hnodes hne
  | cons node rest =>
    rw [hnodes] at hgot hfresh
    simp only [IOBuf.peek, hnodes]
    rw [@peekLoop_eq rest n node hfresh, hgot]

theorem truncLoop_le {nodes : List IOBufNode} {n : ℕ} (hne : nodes ≠ [])
    (hn : n ≤ (nodes.flatMap IOBufNode.unread).length) :
    truncLoop n nodes = .ok (n, (readLoop n nodes).2) := by
  induction nodes generalizing n with
  | nil => exact absurd rfl hne
  | cons node nodes ih =>
    rw [List.flatMap_cons, List.length_append, node.length_unread] at hn
    by_cases hle : n ≤ node.getReadableSize
    · simp only [truncLoop, readLoop, if_pos hle]
    · have hnodes : nodes ≠ [] := by
        rintro rfl
        rw [List.flatMap_nil, List.length_nil] at hn
        omega
      simp only [truncLoop, readLoop, if_neg hle, ih hnodes (n := n - node.getReadableSize)
        (by omega)]
      congr 2
      omega

/-- To skip more than there is takes `cur` to the end iterator, where it is used. -/
theorem truncLoop_gt {nodes : List IOBufNode} {n : ℕ}
    (hn : (nodes.flatMap IOBufNode.unread).length < n) :
    truncLoop n nodes = .error .nullPointer := by
  induction nodes generalizing n with
  | nil => rfl
  | cons node nodes ih =>
    rw [List.flatMap_cons, List.length_append, node.length_unread] at hn
    have hsize : ¬ n ≤ node.getReadableSize := by omega
    simp only [truncLoop, if_neg hsize, ih (n := n - node.getReadableSize) (by omega)]

theorem Queued.trunc {buf : IOBuf} {q : Bytes} (h : buf.Queued q) (hne : buf.nodes ≠ []) {n : ℕ}
    (hn : n ≤ q.length) :
    ∃ buf' : IOBuf, buf.trunc n = .ok (n, buf') ∧ buf'.Queued (q.drop n) := by
  have hunread : buf.nodes.flatMap IOBufNode.unread = q := h.unread_eq hne
  obtain ⟨buf', hread, hqueued⟩ := h.read hne n
  refine ⟨buf', ?_, hqueued⟩
  have heq := (read_eq hne).symm.trans hread
  simp only [Except.ok.injEq, Prod.mk.injEq] at heq
  have hlength : (readLoop n buf.nodes).1.length = n := by
    rw [heq.1, List.length_take, min_eq_left hn]
  have hloop : truncLoop n buf.nodes = .ok (n, (readLoop n buf.nodes).2) :=
    truncLoop_le hne (hn.trans_eq (congrArg List.length hunread.symm))
  simp only [IOBuf.trunc, hloop, ← heq.2, hlength]

theorem trunc_gt {buf : IOBuf} {n : ℕ} (hn : buf.unread.length < n) :
    buf.trunc n = .error .nullPointer := by
  rw [IOBuf.trunc, truncLoop_gt hn]

theorem getReadableSize_push {buf : IOBuf} {q : Bytes} (h : buf.Queued q) (node : IOBufNode) :
    (buf.push node).getReadableSize = q.length + node.data.length := by
  have htotal : (buf.push node).total = buf.total + node.data.length := by
    unfold IOBuf.push
    dsimp only
    split_ifs <;> rfl
  have hreaded : (buf.push node).readed = buf.readed := by
    unfold IOBuf.push
    dsimp only
    split_ifs <;> rfl
  rw [IOBuf.getReadableSize, htotal, hreaded, h.total_eq]
  omega

/-- While its conditions are met, an operation answers as the queue does. -/
theorem Queued.perform {buf : IOBuf} {q : Bytes} (h : buf.Queued q) {op : Operation}
    (horderly : Orderly buf op) :
    ∃ buf', buf.perform op = .ok (op.answer q, buf') ∧ buf'.Queued (op.next q) := by
  have hlength : ∀ n, (q.take n).length = min n q.length := fun n => List.length_take
  cases op with
  | push node => exact ⟨_, rfl, h.push horderly⟩
  | read n =>
    obtain ⟨buf', hread, hqueued⟩ := h.read horderly n
    refine ⟨buf', ?_, hqueued⟩
    simp only [IOBuf.perform, hread, Operation.answer, ← hlength]
    rfl
  | peek n =>
    refine ⟨buf, ?_, h⟩
    simp only [IOBuf.perform, h.peek horderly, Operation.answer, ← hlength]
    rfl
  | trunc n =>
    obtain ⟨hne, hn⟩ := horderly
    rw [h.unread_eq hne] at hn
    obtain ⟨buf', htrunc, hqueued⟩ := h.trunc hne hn
    refine ⟨buf', ?_, hqueued⟩
    simp only [IOBuf.perform, htrunc, Operation.answer, min_eq_left hn]
    rfl
  | clear => exact ⟨_, rfl, queued_nil⟩

/-- An operation that answers as the queue does met its condition. -/
theorem Queued.orderly {buf buf' : IOBuf} {q : Bytes} (h : buf.Queued q) {op : Operation}
    (hfilled : Filled buf op) (hop : buf.perform op = .ok (op.answer q, buf'))
    (hsize : buf'.getReadableSize = (op.next q).length) : Orderly buf op := by
  cases op with
  | push node =>
    have hbuf : buf.push node = buf' := by
      simp only [IOBuf.perform, Except.ok.injEq, Prod.mk.injEq] at hop
      exact hop.2
    have hread : node.read ≤ node.data.length := hfilled
    rw [← hbuf, getReadableSize_push h, Operation.next, List.length_append, node.length_unread,
      IOBufNode.getReadableSize] at hsize
    change node.read = 0
    omega
  | read n =>
    intro hend
    simp [IOBuf.perform, IOBuf.read, hend, bind, Except.bind] at hop
  | peek n =>
    intro hend
    simp [IOBuf.perform, IOBuf.peek, hend, bind, Except.bind] at hop
  | trunc n =>
    constructor
    · intro hend
      simp [IOBuf.perform, IOBuf.trunc, hend, truncLoop, bind, Except.bind] at hop
    · by_contra hn
      simp [IOBuf.perform, trunc_gt (Nat.not_le.mp hn), bind, Except.bind] at hop
  | clear => trivial

/-- The runs of an empty buffer in which every operation meets its condition are those along
which no iterator is used that is not at a node, every operation answers as the queue does,
and the readable size is the length of the queue. -/
theorem orderly_iff_queue (ops : List Operation) :
    (∃ s, RunWhere (serve perform) (fun s op => Orderly s.1 op) ({}, []) ops s) ↔
      ∀ pre, pre <+: ops → ∃ s,
        RunWhere (serve perform) (fun s op => Filled s.1 op) ({}, []) pre s ∧
          s.2 = answers Operation.answer Operation.next [] pre ∧
          s.1.getReadableSize = (pre.foldl Operation.next []).length := by
  apply serve_iff_forall_prefix Queued (fun buf q => buf.getReadableSize = q.length) queued_nil
  · exact fun _ _ h => h.getReadableSize
  · intro buf q op h horderly
    refine ⟨?_, h.perform horderly⟩
    cases op with
    | push node => exact (Nat.le_of_eq horderly).trans (Nat.zero_le _)
    | _ => trivial
  · exact fun _ _ _ _ h => h.orderly

/-- After a read that asked for more than there was, what is pushed is not found. -/
theorem not_queue_after_end :
    ¬ ∃ s, RunWhere (serve perform) (fun s op => Filled s.1 op) ({}, [])
      [.push ⟨[97], 0⟩, .read 2, .push ⟨[98], 0⟩, .read 1] s := by
  rintro ⟨s, hrun⟩
  have hfault : List.foldlM (serve perform) (({} : IOBuf), [])
      [.push ⟨[97], 0⟩, .read 2, .push ⟨[98], 0⟩, .read 1] = .error .nullPointer := rfl
  rw [hrun.foldlM_eq] at hfault
  cases hfault

end IOBuf
end Sese
