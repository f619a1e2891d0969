import Sese.Foundation.Runs
import Sese.Io.ByteQueue

/-!
# The sizes of byte buffers

Buffers that are made, written, read, emptied, copied, moved and swapped in any order. `length`
has the sum of the nodes before the write node and `cap` that of all nodes; `freeCapacity` keeps
both, and `swap` leaves `factor` out.
-/
namespace Sese.Io.AbstractByteBuffer

open Foundation

/-- An operation on the buffers there are, which are named by their places. -/
inductive Op
  | construct (base_size factor : ℕ)
  | write (i : ℕ) (data : Bytes)
  | read (i need_read : ℕ)
  | trunc (i need_read : ℕ)
  | freeCapacity (i : ℕ)
  | copy (i : ℕ)
  | move (i : ℕ)
  | swap (i j : ℕ)
  deriving DecidableEq

def buffer (s : List AbstractByteBuffer) (i : ℕ) : Except Fault AbstractByteBuffer :=
  match s[i]? with
  | some b => .ok b
  | none => .error .nullPointer

/-- New buffers come last. -/
def act (s : List AbstractByteBuffer) : Op → Except Fault (List AbstractByteBuffer)
  | .construct base_size factor => .ok (s ++ [new base_size factor])
  | .write i data => do
    let b ← buffer s i
    let (_, b) ← b.write data
    .ok (s.set i b)
  | .read i need_read => do
    let b ← buffer s i
    let (_, b) ← b.read need_read
    .ok (s.set i b)
  | .trunc i need_read => do
    let b ← buffer s i
    let (_, b) ← b.trunc need_read
    .ok (s.set i b)
  | .freeCapacity i => do
    let b ← buffer s i
    let _ ← b.deref 0
    .ok (s.set i b.freeCapacity.2)
  | .copy i => do
    let b ← buffer s i
    let _ ← b.deref 0
    let b ← b.copy
    .ok (s ++ [b])
  | .move i => do
    let b ← buffer s i
    .ok (s.set i moved ++ [b])
  | .swap i j => do
    let b ← buffer s i
    let other ← buffer s j
    .ok ((s.set i (b.swap other).1).set j (b.swap other).2)

/-- `getLength` and `getCapacity` tell what is in the buffer. One that was moved from has no node
that `getLength` could look at. -/
structure Accounts (b : AbstractByteBuffer) : Prop where
  length : b.nodes ≠ [] → b.getLength = .ok (contents b.nodes).length
  capacity : b.getCapacity = (b.nodes.map Node.cap).sum

/-- What can be seen of a buffer: the replies to calls, and then its length and its capacity. -/
def observe (b : AbstractByteBuffer) (list : List Call) : Except Fault (List Reply × ℕ × ℕ) := do
  let (replies, b) ← b.calls list
  let n ← b.getLength
  .ok (replies, n, b.getCapacity)

def Alike (b b' : AbstractByteBuffer) : Prop := ∀ list, b.observe list = b'.observe list

/-- After the operation every size is right, and if it is a swap, either buffer behaves as the
other one would have done. -/
structure Right (s : List AbstractByteBuffer) (op : Op) (t : List AbstractByteBuffer) : Prop where
  accounts : ∀ b ∈ t, b.Accounts
  exchanged : ∀ i j, op = .swap i j → ∀ b other, s[i]? = some b → s[j]? = some other →
    ∃ b' other', t[i]? = some b' ∧ t[j]? = some other' ∧ b'.Alike other ∧ other'.Alike b

/-- Only a buffer that has one node is emptied, and only buffers that grow alike are swapped. -/
def Sound (s : List AbstractByteBuffer) : Op → Prop
  | .freeCapacity i => ∀ b ∈ s[i]?, b.nodes.length ≤ 1
  | .swap i j => ∀ b ∈ s[i]?, ∀ other ∈ s[j]?, b.factor = other.factor
  | _ => True

/-- The totals are those of the nodes. A node behind the root has room, since writing comes to an
end only if it has. -/
structure Sums (b : AbstractByteBuffer) (init : List Node) (last : Node) : Prop
    extends WritesAt b init last where
  ok : ∀ node ∈ b.nodes, node.Ok
  length : b.length = (init.map Node.cap).sum
  cap : b.cap = (b.nodes.map Node.cap).sum
  grown : ∀ node ∈ b.nodes.tail, 0 < node.cap

/-- What a buffer is between two operations; a buffer that was moved from has nothing. -/
def Settled (b : AbstractByteBuffer) : Prop :=
  (b.nodes = [] ∧ b.cap = 0 ∧ b.factor = 0) ∨ ∃ init last, b.Sums init last

variable {b b' : AbstractByteBuffer} {init : List Node} {last : Node}

theorem length_contents {nodes : List Node} (hok : ∀ node ∈ nodes, node.Ok) :
    (contents nodes).length = (nodes.map Node.length).sum := by
  induction nodes with
  | nil => rfl
  | cons node nodes ih =>
    have hnode := hok node List.mem_cons_self
    rw [contents_cons, List.length_append, hnode.length_data, List.map_cons, List.sum_cons,
      ih fun n hn => hok n (List.mem_cons_of_mem _ hn)]

theorem Sums.last_ok (h : b.Sums init last) : last.Ok := h.ok last (by rw [h.nodes]; simp)

theorem Sums.accounts (h : b.Sums init last) : b.Accounts where
  length := by
    intro _
    have hinit : (init.map Node.length).sum = (init.map Node.cap).sum :=
      congrArg List.sum (List.map_congr_left h.full)
    rw [getLength, h.deref, ok_bind, length_contents h.ok, h.nodes, h.length, List.map_append,
      List.sum_append, hinit]
    simp
  capacity := h.cap

theorem Settled.accounts (h : b.Settled) : b.Accounts := by
  rcases h with ⟨hnodes, hcap, -⟩ | ⟨init, last, h⟩
  · exact ⟨fun hne => absurd hnodes hne, by rw [getCapacity, hcap, hnodes]; rfl⟩
  · exact h.accounts

theorem WritesAt.grow {node : Node} {buffer_size : ℕ} (h : b.WritesAt init last)
    (hnodes : b'.nodes = b.nodes.take b.currentWriteNode ++ [node, .new buffer_size])
    (hplace : b'.currentWriteNode = b.currentWriteNode + 1) (hpos : b'.currentWritePos = 0)
    (hfull : node.length = node.cap) : b'.WritesAt (init ++ [node]) (.new buffer_size) where
  nodes := by
    rw [hnodes, h.nodes, h.place, List.take_left, List.append_assoc]
    rfl
  place := by rw [hplace, h.place, List.length_append, List.length_singleton]
  pos := hpos
  full := by
    intro n hn
    rcases List.mem_append.mp hn with hn | hn
    · exact h.full n hn
    · rw [List.mem_singleton.mp hn, hfull]

/-- Where nodes without memory come next, a write that does not fit goes on for ever. -/
theorem WritesAt.writeLoop_stuck {fuel : ℕ} {data : Bytes} {r : ℕ × AbstractByteBuffer}
    (h : b.WritesAt init last) (hdata : last.cap - last.length < data.length) (hfactor : b.factor = 0) :
    writeLoop fuel b data ≠ .ok r := by
  induction fuel generalizing b init last data r with
  | zero => exact fun hloop => nomatch hloop
  | succ fuel ih =>
    intro hloop
    rw [writeLoop, h.deref, ok_bind] at hloop
    dsimp only at hloop
    rw [if_neg (not_le.mpr hdata)] at hloop
    obtain ⟨buffer, -, hloop⟩ := bind_eq_ok.mp hloop
    obtain ⟨⟨n, b'⟩, hnext, -⟩ := bind_eq_ok.mp hloop
    have hrest : b.factor - 0 < (data.drop (last.cap - last.length)).length := by
      rw [List.length_drop]
      omega
    exact absurd hnext (ih (h.grow rfl rfl rfl rfl) hrest hfactor)

theorem Sums.fill {last' : Node} (h : b.Sums init last) (hok : last'.Ok) (hcap : last'.cap = last.cap)
    (hwrite : b'.WritesAt init last') (hlength : b'.length = b.length) (htotal : b'.cap = b.cap) :
    b'.Sums init last' where
  toWritesAt := hwrite
  ok := by
    intro node hnode
    rw [hwrite.nodes] at hnode
    rcases List.mem_append.mp hnode with hnode | hnode
    · exact h.ok node (by rw [h.nodes]; exact List.mem_append_left _ hnode)
    · rwa [List.mem_singleton.mp hnode]
  length := hlength.trans h.length
  cap := by
    rw [htotal, h.cap, h.nodes, hwrite.nodes]
    simp [hcap]
  grown := by
    have hgrown := h.grown
    rw [h.nodes] at hgrown
    rw [hwrite.nodes]
    cases init with
    | nil => simp
    | cons root init =>
      intro node hnode
      rcases List.mem_append.mp hnode with hnode | hnode
      · exact hgrown node (List.mem_append_left _ hnode)
      · rw [List.mem_singleton.mp hnode, hcap]
        exact hgrown last (List.mem_append_right _ (List.mem_singleton_self last))

theorem Sums.addNode {buffer_size : ℕ} (h : b.Sums init last)
    (hwrite : b'.WritesAt (init ++ [last]) (.new buffer_size)) (hsize : 0 < buffer_size)
    (hlength : b'.length = b.length + last.cap) (htotal : b'.cap = b.cap + buffer_size) :
    b'.Sums (init ++ [last]) (.new buffer_size) where
  toWritesAt := hwrite
  ok := by
    intro node hnode
    rw [hwrite.nodes, ← h.nodes] at hnode
    rcases List.mem_append.mp hnode with hnode | hnode
    · exact h.ok node hnode
    · rw [List.mem_singleton.mp hnode]
      exact Node.new_ok buffer_size
  length := by
    rw [hlength, h.length]
    simp
  cap := by
    rw [htotal, h.cap, hwrite.nodes, ← h.nodes, List.map_append, List.sum_append]
    rfl
  grown := by
    rw [hwrite.nodes, List.tail_append_of_ne_nil (by simp), ← h.nodes]
    intro node hnode
    rcases List.mem_append.mp hnode with hnode | hnode
    · exact h.grown node hnode
    · rw [List.mem_singleton.mp hnode]
      exact hsize

theorem Sums.writeLoop {fuel n : ℕ} {data : Bytes} (h : b.Sums init last)
    (hloop : writeLoop fuel b data = .ok (n, b')) :
    (∃ init' last', b'.Sums init' last') ∧ b'.factor = b.factor := by
  induction fuel generalizing b init last data n with
  | zero => cases hloop
  | succ fuel ih =>
    have hok := h.last_ok
    have hle := hok.length_le
    by_cases hroom : data.length ≤ last.cap - last.length
    · obtain ⟨buffer, hstore, hnode⟩ := hok.store_eq data (by omega)
      rw [AbstractByteBuffer.writeLoop, h.deref, ok_bind] at hloop
      dsimp only at hloop
      rw [if_pos hroom, h.pos, hstore, ok_bind] at hloop
      cases hloop
      exact ⟨⟨init, _, h.fill (hnode _ rfl).1 rfl (h.setLast rfl rfl rfl) rfl rfl⟩, rfl⟩
    · have hfactor : 0 < b.factor := by
        refine Nat.pos_of_ne_zero fun hzero => ?_
        exact h.writeLoop_stuck (not_le.mp hroom) hzero hloop
      have htake : (data.take (last.cap - last.length)).length = last.cap - last.length := by
        rw [List.length_take]
        omega
      obtain ⟨buffer, hstore, hnode⟩ := hok.store_eq (data.take (last.cap - last.length)) (by omega)
      rw [AbstractByteBuffer.writeLoop, h.deref, ok_bind] at hloop
      dsimp only at hloop
      rw [if_neg hroom, h.pos, hstore, ok_bind] at hloop
      obtain ⟨⟨m, b''⟩, hnext, hloop⟩ := bind_eq_ok.mp hloop
      cases hloop
      have hfilled : ({ b with
          nodes := init ++ [⟨buffer, last.cap, last.cap⟩], currentWritePos := last.cap } :
          AbstractByteBuffer).Sums init ⟨buffer, last.cap, last.cap⟩ :=
        h.fill (hnode last.cap (by omega)).1 rfl ⟨rfl, h.place, rfl, h.full⟩ rfl rfl
      obtain ⟨hsums, heq⟩ := ih (hfilled.addNode (h.grow rfl rfl rfl rfl) hfactor rfl rfl) hnext
      exact ⟨hsums, heq⟩

theorem WritesAt.writeLoop_room (h : b.WritesAt init last) (hok : last.Ok) {data : Bytes}
    (hroom : data.length ≤ last.cap - last.length) (fuel : ℕ) :
    ∃ b', writeLoop (fuel + 1) b data = .ok (data.length, b') ∧ b'.cap = b.cap := by
  have hle := hok.length_le
  obtain ⟨buffer, hstore, -⟩ := hok.store_eq data (by omega)
  rw [writeLoop, h.deref, ok_bind]
  dsimp only
  rw [if_pos hroom, h.pos, hstore, ok_bind]
  exact ⟨_, rfl, rfl⟩

/-- A write that needs one octet more than there is room for makes a node of `factor` octets. -/
theorem Sums.write_over (h : b.Sums init last) {data : Bytes}
    (hdata : data.length = last.cap - last.length + 1) (hfactor : 0 < b.factor) :
    ∃ b', b.write data = .ok (data.length, b') ∧ b'.cap = b.cap + b.factor := by
  have hok := h.last_ok
  have hle := hok.length_le
  have htake : (data.take (last.cap - last.length)).length = last.cap - last.length := by
    rw [List.length_take]
    omega
  have hdrop : (data.drop (last.cap - last.length)).length = 1 := by
    rw [List.length_drop]
    omega
  obtain ⟨buffer, hstore, -⟩ := hok.store_eq (data.take (last.cap - last.length)) (by omega)
  let next : AbstractByteBuffer := { b with
    nodes := b.nodes.take b.currentWriteNode ++ [⟨buffer, last.cap, last.cap⟩, .new b.factor]
    length := b.length + last.cap
    cap := b.cap + b.factor
    currentWritePos := 0
    currentWriteNode := b.currentWriteNode + 1 }
  have hnext : next.WritesAt (init ++ [⟨buffer, last.cap, last.cap⟩]) (.new b.factor) :=
    h.grow rfl rfl rfl rfl
  have hroom : (data.drop (last.cap - last.length)).length ≤ b.factor - 0 := by omega
  obtain ⟨b', hloop, hcap⟩ := hnext.writeLoop_room (Node.new_ok b.factor) hroom data.length
  refine ⟨b', ?_, hcap⟩
  rw [write, AbstractByteBuffer.writeLoop, h.deref, ok_bind]
  dsimp only
  rw [if_neg (by omega), h.pos, hstore, ok_bind, hloop, ok_bind, hdrop, hdata]

theorem Sums.withFactor (h : b.Sums init last) (factor : ℕ) :
    ({ b with factor := factor } : AbstractByteBuffer).Sums init last where
  toWritesAt := ⟨h.nodes, h.place, h.pos, h.full⟩
  ok := h.ok
  length := h.length
  cap := h.cap
  grown := h.grown

theorem Sums.observe_over (h : b.Sums init last) {data : Bytes}
    (hdata : data.length = last.cap - last.length + 1) :
    (0 < b.factor → ∃ replies n, b.observe [.write data] = .ok (replies, n, b.cap + b.factor)) ∧
      (b.factor = 0 → ∀ r, b.observe [.write data] ≠ .ok r) := by
  constructor
  · intro hfactor
    obtain ⟨b', hwrite, hcap⟩ := h.write_over hdata hfactor
    obtain ⟨⟨init', last', hsums⟩, -⟩ := h.writeLoop hwrite
    refine ⟨[.count data.length], b'.length + last'.length, ?_⟩
    simp only [observe, calls, step, hwrite, ok_bind, getLength, hsums.deref, getCapacity, hcap]
  · intro hfactor r hobserve
    simp only [observe, calls, step] at hobserve
    obtain ⟨_, hcalls, -⟩ := bind_eq_ok.mp hobserve
    obtain ⟨_, hstep, -⟩ := bind_eq_ok.mp hcalls
    obtain ⟨_, hwrite, -⟩ := bind_eq_ok.mp hstep
    exact h.writeLoop_stuck (by omega) hfactor hwrite

theorem Sums.alike_iff (h : b.Sums init last) {factor : ℕ} :
    b.Alike { b with factor := factor } ↔ b.factor = factor := by
  constructor
  · intro halike
    have hdata : (List.replicate (last.cap - last.length + 1) (0 : UInt8)).length =
        last.cap - last.length + 1 := List.length_replicate
    obtain ⟨hgrows, hstuck⟩ := h.observe_over hdata
    obtain ⟨hgrows', hstuck'⟩ := (h.withFactor factor).observe_over hdata
    have hsame := halike [.write (List.replicate (last.cap - last.length + 1) 0)]
    rcases Nat.eq_zero_or_pos b.factor with hzero | hpos
    · rcases Nat.eq_zero_or_pos factor with hzero' | hpos'
      · rw [hzero, hzero']
      · obtain ⟨replies, n, hok⟩ := hgrows' hpos'
        exact absurd (hsame.trans hok) (hstuck hzero _)
    · obtain ⟨replies, n, hok⟩ := hgrows hpos
      rcases Nat.eq_zero_or_pos factor with hzero' | hpos'
      · exact absurd (hsame.symm.trans hok) (hstuck' hzero' _)
      · obtain ⟨replies', n', hok'⟩ := hgrows' hpos'
        have heq := hok.symm.trans (hsame.trans hok')
        simp only [Except.ok.injEq, Prod.mk.injEq] at heq
        omega
  · rintro rfl
    exact fun _ => rfl

theorem Settled.nodes_ne_nil (h : b.Settled) (hne : b.nodes ≠ []) : ∃ init last, b.Sums init last := by
  rcases h with ⟨hnil, -⟩ | h
  · exact absurd hnil hne
  · exact h

theorem nodes_ne_nil_of_deref {i : ℕ} {node : Node} (h : b.deref i = .ok node) : b.nodes ≠ [] := by
  intro hnil
  simp [deref, hnil] at h

theorem new_settled (base_size factor : ℕ) : (new base_size factor).Settled := by
  refine .inr ⟨[], .new base_size, ⟨rfl, rfl, rfl, by simp⟩, ?_, rfl, rfl, by simp [new]⟩
  intro node hnode
  rw [List.mem_singleton.mp hnode]
  exact Node.new_ok base_size

theorem moved_settled : moved.Settled := .inl ⟨rfl, rfl, rfl⟩

theorem Settled.write {n : ℕ} {data : Bytes} (h : b.Settled) (hwrite : b.write data = .ok (n, b')) :
    b'.Settled := by
  rw [AbstractByteBuffer.write] at hwrite
  have hne : b.nodes ≠ [] := by
    rw [writeLoop] at hwrite
    obtain ⟨node, hderef, -⟩ := bind_eq_ok.mp hwrite
    exact nodes_ne_nil_of_deref hderef
  obtain ⟨init, last, hsums⟩ := h.nodes_ne_nil hne
  exact .inr (hsums.writeLoop hwrite).1

theorem Settled.cursor (h : b.Settled) (i pos : ℕ) :
    ({ b with currentReadNode := i, currentReadPos := pos } : AbstractByteBuffer).Settled := by
  rcases h with h | ⟨init, last, h⟩
  · exact .inl h
  · exact .inr ⟨init, last, ⟨h.nodes, h.place, h.pos, h.full⟩, h.ok, h.length, h.cap, h.grown⟩

theorem Settled.read {n : ℕ} {src : Bytes} (h : b.Settled) (hread : b.read n = .ok (src, b')) :
    b'.Settled := by
  obtain ⟨⟨_, i, pos⟩, -, hread⟩ := bind_eq_ok.mp hread
  cases hread
  exact h.cursor i pos

theorem Settled.trunc {n m : ℕ} (h : b.Settled) (htrunc : b.trunc n = .ok (m, b')) : b'.Settled := by
  obtain ⟨⟨_, i, pos⟩, -, htrunc⟩ := bind_eq_ok.mp htrunc
  cases htrunc
  exact h.cursor i pos

theorem Sums.copy (h : b.Sums init last) (hcopy : b.copy = .ok b') :
    b'.Sums (init.map Node.copied) last.copied := by
  have hplace : b.currentWriteNode < b.nodes.length := by
    rw [h.nodes, h.place]
    simp
  have hcaps : ∀ nodes : List Node, (nodes.map Node.copied).map Node.cap = nodes.map Node.cap := by
    intro nodes
    rw [List.map_map]
    rfl
  rw [AbstractByteBuffer.copy, copy_nodes h.ok, ok_bind, if_pos hplace] at hcopy
  cases hcopy
  refine ⟨h.copied rfl rfl rfl, ?_, ?_, ?_, ?_⟩
  · intro n hn
    obtain ⟨node, hnode, rfl⟩ := List.mem_map.mp hn
    exact (h.ok node hnode).copy_eq.2.1
  · rw [hcaps]
    exact h.length
  · rw [hcaps]
    exact h.cap
  · intro n hn
    dsimp only at hn
    rw [← List.map_tail] at hn
    obtain ⟨node, hnode, rfl⟩ := List.mem_map.mp hn
    exact h.grown node hnode

theorem Sums.freeCapacity (h : b.Sums init last) (hone : b.nodes.length ≤ 1) :
    b.freeCapacity.2.Settled := by
  have hinit : init = [] := by
    rw [h.nodes, List.length_append, List.length_singleton] at hone
    exact List.eq_nil_of_length_eq_zero (by omega)
  subst hinit
  have hok := h.last_ok
  have hnodes : b.freeCapacity.2.nodes = [{ last with length := 0 }] := by
    change (b.nodes.take 1).map _ = _
    rw [h.nodes]
    rfl
  refine .inr ⟨[], { last with length := 0 }, ⟨hnodes, rfl, rfl, by simp⟩, ?_, h.length, ?_, ?_⟩
  · intro node hnode
    rw [hnodes, List.mem_singleton] at hnode
    rw [hnode]
    exact ⟨Nat.zero_le _, hok.buffer⟩
  · change b.cap = _
    rw [h.cap, h.nodes, hnodes]
    rfl
  · simp [hnodes]

/-- The totals are right after a buffer was emptied if and only if it had only one node. -/
theorem Sums.freeCapacity_iff (h : b.Sums init last) :
    b.freeCapacity.2.Accounts ↔ b.nodes.length ≤ 1 := by
  constructor
  · intro haccounts
    obtain ⟨root, nodes, hroot⟩ := h.root
    have hcap := haccounts.capacity
    have hgrown := h.grown
    change b.cap = (((b.nodes.take 1).map fun root => { root with length := 0 }).map Node.cap).sum at hcap
    rw [h.cap, hroot] at hcap
    rw [hroot] at hgrown ⊢
    cases nodes with
    | nil => rfl
    | cons next nodes =>
      have hpos := hgrown next List.mem_cons_self
      simp only [List.map_cons, List.take_succ_cons, List.take_zero, List.map_nil, List.sum_cons,
        List.sum_nil] at hcap
      omega
  · exact fun hone => (h.freeCapacity hone).accounts

variable {s t : List AbstractByteBuffer} {op : Op}

theorem buffer_ok {i : ℕ} : buffer s i = .ok b ↔ s[i]? = some b := by
  unfold buffer
  cases s[i]? <;> simp

theorem mem_of_buffer {i : ℕ} (h : buffer s i = .ok b) : b ∈ s := List.mem_of_getElem? (buffer_ok.mp h)

theorem settled_set (hs : ∀ b ∈ s, b.Settled) (hb : b.Settled) (i : ℕ) :
    ∀ b' ∈ s.set i b, b'.Settled := by
  intro b' hb'
  rcases List.mem_or_eq_of_mem_set hb' with hmem | rfl
  · exact hs b' hmem
  · exact hb

theorem settled_append (hs : ∀ b ∈ s, b.Settled) (hb : b.Settled) : ∀ b' ∈ s ++ [b], b'.Settled := by
  intro b' hb'
  rcases List.mem_append.mp hb' with hmem | hmem
  · exact hs b' hmem
  · rwa [List.mem_singleton.mp hmem]

theorem swap_of_factor_eq {other : AbstractByteBuffer} (h : b.factor = other.factor) :
    b.swap other = (other, b) := by
  cases b
  cases other
  cases h
  rfl

theorem act_settled (hs : ∀ b ∈ s, b.Settled) (hsound : Sound s op) (hact : act s op = .ok t) :
    ∀ b ∈ t, b.Settled := by
  cases op with
  | construct base_size factor =>
    cases hact
    exact settled_append hs (new_settled base_size factor)
  | write i data =>
    obtain ⟨b, hb, hact⟩ := bind_eq_ok.mp hact
    obtain ⟨⟨n, b'⟩, hwrite, hact⟩ := bind_eq_ok.mp hact
    cases hact
    exact settled_set hs ((hs b (mem_of_buffer hb)).write hwrite) i
  | read i n =>
    obtain ⟨b, hb, hact⟩ := bind_eq_ok.mp hact
    obtain ⟨⟨src, b'⟩, hread, hact⟩ := bind_eq_ok.mp hact
    cases hact
    exact settled_set hs ((hs b (mem_of_buffer hb)).read hread) i
  | trunc i n =>
    obtain ⟨b, hb, hact⟩ := bind_eq_ok.mp hact
    obtain ⟨⟨m, b'⟩, htrunc, hact⟩ := bind_eq_ok.mp hact
    cases hact
    exact settled_set hs ((hs b (mem_of_buffer hb)).trunc htrunc) i
  | freeCapacity i =>
    obtain ⟨b, hb, hact⟩ := bind_eq_ok.mp hact
    obtain ⟨node, hderef, hact⟩ := bind_eq_ok.mp hact
    cases hact
    obtain ⟨init, last, hsums⟩ :=
      (hs b (mem_of_buffer hb)).nodes_ne_nil (nodes_ne_nil_of_deref hderef)
    exact settled_set hs (hsums.freeCapacity (hsound b (buffer_ok.mp hb))) i
  | copy i =>
    obtain ⟨b, hb, hact⟩ := bind_eq_ok.mp hact
    obtain ⟨node, hderef, hact⟩ := bind_eq_ok.mp hact
    obtain ⟨b', hcopy, hact⟩ := bind_eq_ok.mp hact
    cases hact
    obtain ⟨init, last, hsums⟩ :=
      (hs b (mem_of_buffer hb)).nodes_ne_nil (nodes_ne_nil_of_deref hderef)
    exact settled_append hs (.inr ⟨_, _, hsums.copy hcopy⟩)
  | move i =>
    obtain ⟨b, hb, hact⟩ := bind_eq_ok.mp hact
    cases hact
    exact settled_append (settled_set hs moved_settled i) (hs b (mem_of_buffer hb))
  | swap i j =>
    obtain ⟨b, hb, hact⟩ := bind_eq_ok.mp hact
    obtain ⟨other, hother, hact⟩ := bind_eq_ok.mp hact
    cases hact
    have hfactor := hsound b (buffer_ok.mp hb) other (buffer_ok.mp hother)
    rw [swap_of_factor_eq hfactor]
    exact settled_set (settled_set hs (hs other (mem_of_buffer hother)) i) (hs b (mem_of_buffer hb)) j

theorem Alike.symm (h : b.Alike b') : b'.Alike b := fun list => (h list).symm

/-- Two buffers that were swapped and behave as if they had been exchanged grow alike. -/
theorem Settled.factor_eq {other : AbstractByteBuffer} (hb : b.Settled) (hother : other.Settled)
    (hfirst : (b.swap other).1.Alike other) (hsecond : (b.swap other).2.Alike b) :
    b.factor = other.factor := by
  rcases hb with ⟨-, -, hzero⟩ | ⟨init, last, hsums⟩
  · rcases hother with ⟨-, -, hzero'⟩ | ⟨init, last, hsums⟩
    · rw [hzero, hzero']
    · exact (hsums.alike_iff.mp hfirst.symm).symm
  · exact hsums.alike_iff.mp hsecond.symm

theorem getElem_swap {i j : ℕ} {x y : AbstractByteBuffer} (hi : i < s.length) (hj : j < s.length)
    (hsame : i = j → x = y) :
    ((s.set i x).set j y)[i]? = some x ∧ ((s.set i x).set j y)[j]? = some y := by
  constructor
  · by_cases hij : j = i
    · subst hij
      rw [List.getElem?_set_self (by rwa [List.length_set]), hsame rfl]
    · rw [List.getElem?_set_ne hij, List.getElem?_set_self hi]
  · rw [List.getElem?_set_self (by rwa [List.length_set])]

/-- An operation does right if and only if it is sound. -/
theorem right_iff_sound (hs : ∀ b ∈ s, b.Settled) (hact : act s op = .ok t) :
    Right s op t ↔ Sound s op := by
  constructor
  · rintro ⟨haccounts, hexchanged⟩
    cases op with
    | freeCapacity i =>
      obtain ⟨b, hb, hact⟩ := bind_eq_ok.mp hact
      obtain ⟨node, hderef, hact⟩ := bind_eq_ok.mp hact
      cases hact
      obtain ⟨init, last, hsums⟩ :=
        (hs b (mem_of_buffer hb)).nodes_ne_nil (nodes_ne_nil_of_deref hderef)
      intro b' hb'
      obtain rfl : b = b' := Option.some.inj ((buffer_ok.mp hb).symm.trans hb')
      have hi := (List.getElem?_eq_some_iff.mp hb').1
      exact hsums.freeCapacity_iff.mp (haccounts _ (List.mem_set hi _))
    | swap i j =>
      obtain ⟨b, hb, hact⟩ := bind_eq_ok.mp hact
      obtain ⟨other, hother, hact⟩ := bind_eq_ok.mp hact
      cases hact
      have hi := buffer_ok.mp hb
      have hj := buffer_ok.mp hother
      have hsame : i = j → (b.swap other).1 = (b.swap other).2 := by
        rintro rfl
        obtain rfl := Option.some.inj (hi.symm.trans hj)
        rfl
      obtain ⟨hfirst, hsecond⟩ := getElem_swap (List.getElem?_eq_some_iff.mp hi).1
        (List.getElem?_eq_some_iff.mp hj).1 hsame
      obtain ⟨b', other', hb', hother', hlike, hlike'⟩ := hexchanged i j rfl b other hi hj
      obtain rfl := Option.some.inj (hfirst.symm.trans hb')
      obtain rfl := Option.some.inj (hsecond.symm.trans hother')
      intro b₀ hb₀ other₀ hother₀
      obtain rfl := Option.some.inj (hi.symm.trans hb₀)
      obtain rfl := Option.some.inj (hj.symm.trans hother₀)
      exact (hs b (mem_of_buffer hb)).factor_eq (hs other (mem_of_buffer hother)) hlike hlike'
    | _ => trivial
  · intro hsound
    refine ⟨fun b hb => (act_settled hs hsound hact b hb).accounts, ?_⟩
    rintro i j rfl b other hi hj
    rw [act, buffer_ok.mpr hi, buffer_ok.mpr hj] at hact
    cases hact
    have hfactor := hsound b hi other hj
    have hsame : i = j → other = b := by
      rintro rfl
      exact Option.some.inj (hj.symm.trans hi)
    obtain ⟨hfirst, hsecond⟩ := getElem_swap (List.getElem?_eq_some_iff.mp hi).1
      (List.getElem?_eq_some_iff.mp hj).1 hsame
    rw [swap_of_factor_eq hfactor]
    exact ⟨other, b, hfirst, hsecond, fun _ => rfl, fun _ => rfl⟩

/-- The condition may be checked in place of what it is for. -/
theorem run_sound_iff {ops : List Op} (hs : ∀ b ∈ s, b.Settled) :
    RunWhere act Sound s ops t ↔
      RunWhere act (fun s op => ∀ t, act s op = .ok t → Right s op t) s ops t := by
  constructor
  · intro hrun
    induction hrun with
    | nil => exact .nil _
    | cons hsound hact _ ih =>
      exact .cons (fun _ hact => (right_iff_sound hs hact).mpr hsound) hact
        (ih (act_settled hs hsound hact))
  · intro hrun
    induction hrun with
    | nil => exact .nil _
    | cons hright hact _ ih =>
      have hsound := (right_iff_sound hs hact).mp (hright _ hact)
      exact .cons hsound hact (ih (act_settled hs hsound hact))

/-- The runs in which only buffers with one node are emptied and only buffers that grow alike are
swapped are those in which every size is right after every operation and every swap exchanges
the two buffers. -/
theorem sound_iff_right (ops : List Op) (s : List AbstractByteBuffer) :
    RunWhere act Sound [] ops s ↔
      RunWhere act (fun s op => ∀ t, act s op = .ok t → Right s op t) [] ops s :=
  run_sound_iff (by simp)

/-- After two nodes were written to and the buffer was emptied, it still counts an octet. -/
theorem stale_after_freeCapacity :
    ∃ s, RunWhere act Unrestricted [] [.construct 1 1, .write 0 [7, 8], .freeCapacity 0] s ∧
      ¬ ∀ b ∈ s, b.Accounts := by
  obtain ⟨s, hrun, hs⟩ := exists_run_of_any act Unrestricted []
    [.construct 1 1, .write 0 [7, 8], .freeCapacity 0]
    (fun s => s == [{ (new 1 1) with nodes := [⟨[7], 0, 1⟩], length := 1, cap := 2 }]) (by decide)
  rw [eq_of_beq hs] at hrun
  refine ⟨_, hrun, fun haccounts => ?_⟩
  have hlength := (haccounts _ (List.mem_singleton_self _)).length (by simp)
  revert hlength
  decide

end Sese.Io.AbstractByteBuffer
