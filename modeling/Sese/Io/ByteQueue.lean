import Sese.Io.AbstractByteBuffer

/-!
# The byte buffer as a queue

The chain of nodes holds the octets written since the buffer was emptied last, in order, and the
read node and position stand for a cursor in them. Every call keeps that and replies what the
queue replies.
-/
namespace Sese.Io.AbstractByteBuffer

open Foundation

structure Node.Ok (node : Node) : Prop where
  length_le : node.length ≤ node.cap
  buffer : node.buffer.length = node.cap

theorem Node.new_ok (buffer_size : ℕ) : (Node.new buffer_size).Ok where
  length_le := Nat.zero_le _
  buffer := List.length_replicate

@[simp] theorem Node.data_new (buffer_size : ℕ) : (Node.new buffer_size).data = [] := rfl

theorem Node.Ok.length_data {node : Node} (h : node.Ok) : node.data.length = node.length := by
  rw [Node.data, List.length_take, h.buffer, Nat.min_eq_left h.length_le]

def contents (nodes : List Node) : Bytes := nodes.flatMap Node.data

@[simp] theorem contents_nil : contents [] = [] := rfl

@[simp] theorem contents_cons (node : Node) (nodes : List Node) :
    contents (node :: nodes) = node.data ++ contents nodes := rfl

@[simp] theorem contents_append (nodes nodes' : List Node) :
    contents (nodes ++ nodes') = contents nodes ++ contents nodes' := List.flatMap_append

theorem Node.Ok.load_eq {node : Node} (h : node.Ok) {pos n : ℕ} (hn : pos + n ≤ node.length) :
    load node.buffer pos n = .ok ((node.data.drop pos).take n) := by
  have hlen := h.length_le
  rw [load, if_pos (by rw [h.buffer]; omega), window, Node.data, List.drop_take, List.take_take,
    Nat.min_eq_left (by omega)]

theorem Node.Ok.store_eq {node : Node} (h : node.Ok) (data : Bytes)
    (hroom : node.length + data.length ≤ node.cap) :
    ∃ buffer, store node.buffer node.length data = .ok buffer ∧
      ∀ length, length = node.length + data.length →
        (⟨buffer, length, node.cap⟩ : Node).Ok ∧
        (⟨buffer, length, node.cap⟩ : Node).data = node.data ++ data := by
  have hfits : node.length + data.length ≤ node.buffer.length := by rwa [h.buffer]
  refine ⟨overwrite node.buffer node.length data, if_pos hfits, ?_⟩
  rintro length rfl
  constructor
  · constructor
    · exact hroom
    · exact (length_overwrite hfits).trans h.buffer
  · have hlen : node.length + data.length = (node.data ++ data).length := by
      rw [List.length_append, h.length_data]
    change (overwrite node.buffer node.length data).take (node.length + data.length) = _
    rw [overwrite, ← Node.data, hlen, List.take_left]

/-- The loop comes to the node where the octets asked for end, or all octets there are. -/
theorem readLoop_eq {node : Node} {back : List Node} (hok : ∀ n ∈ node :: back, n.Ok) {pos : ℕ}
    (hpos : pos ≤ node.length) (i need : ℕ) :
    ∃ skipped node' back' pos', node :: back = skipped ++ node' :: back' ∧ pos' ≤ node'.length ∧
      (contents skipped).length + pos' = pos + min need (node.data.drop pos ++ contents back).length ∧
      readLoop (i + back.length) (node :: back) i pos need =
        .ok ((node.data.drop pos ++ contents back).take need, i + skipped.length, pos') := by
  have hnode := hok node List.mem_cons_self
  have hdata : (node.data.drop pos).length = node.length - pos := by
    rw [List.length_drop, hnode.length_data]
  by_cases hneed : need ≤ node.length - pos
  · refine ⟨[], node, back, pos + need, rfl, by omega, ?_, ?_⟩
    · rw [contents_nil, List.length_nil, List.length_append, hdata]
      omega
    · rw [readLoop, if_pos hneed, hnode.load_eq (by omega), ok_bind,
        List.take_append_of_le_length (by rw [hdata]; exact hneed)]
      rfl
  · have hall : (node.data.drop pos).take (node.length - pos) = node.data.drop pos :=
      List.take_of_length_le hdata.le
    cases back with
    | nil =>
      refine ⟨[], node, [], pos + (node.length - pos), rfl, by omega, ?_, ?_⟩
      · rw [contents_nil, List.length_nil, List.length_append, hdata, List.length_nil]
        omega
      · rw [readLoop, if_neg hneed, hnode.load_eq (by omega), hall, ok_bind,
          List.length_nil, if_pos (Nat.add_zero i).symm, contents_nil, List.append_nil,
          List.take_of_length_le (by omega)]
        rfl
    | cons next back =>
      obtain ⟨skipped, node', back', pos', hsplit, hpos', hcount, hloop⟩ :=
        readLoop_eq (fun n hn => hok n (List.mem_cons_of_mem _ hn)) (Nat.zero_le next.length) (i + 1)
          (need - (node.length - pos))
      rw [List.drop_zero] at hcount hloop
      have htake : (node.data.drop pos ++ contents (next :: back)).take need =
          node.data.drop pos ++ (next.data ++ contents back).take (need - (node.length - pos)) := by
        rw [List.take_append, List.take_of_length_le (by omega), hdata, contents_cons]
      have hi : ¬ i = i + (next :: back).length := by
        rw [List.length_cons]
        omega
      have hlast : i + (next :: back).length = i + 1 + back.length := by
        rw [List.length_cons]
        omega
      refine ⟨node :: skipped, node', back', pos', congrArg (node :: ·) hsplit, hpos', ?_, ?_⟩
      · rw [contents_cons, List.length_append, hnode.length_data, List.length_append, hdata,
          contents_cons]
        omega
      · rw [readLoop, if_neg hneed, hnode.load_eq (by omega), hall, ok_bind, if_neg hi, hlast, hloop,
          ok_bind, htake, List.length_cons, Nat.add_assoc, Nat.add_comm 1]
termination_by back.length

theorem truncLoop_of_readLoop {w : ℕ} {nodes : List Node} {i pos need : ℕ} {src : Bytes}
    {i' pos' : ℕ} (h : readLoop w nodes i pos need = .ok (src, i', pos')) :
    truncLoop w nodes i pos need = .ok (src.length, i', pos') := by
  have hload : ∀ {buffer : Bytes} {pos n : ℕ} {src : Bytes}, load buffer pos n = .ok src →
      src.length = n := by
    intro buffer pos n src hsrc
    by_cases hn : pos + n ≤ buffer.length
    · rw [load, if_pos hn] at hsrc
      cases hsrc
      exact length_window hn
    · rw [load, if_neg hn] at hsrc
      cases hsrc
  induction nodes generalizing i pos need src with
  | nil => cases h
  | cons node nodes ih =>
    rw [readLoop] at h
    rw [truncLoop]
    dsimp only at h ⊢
    split_ifs at h ⊢ with hneed hw
    · obtain ⟨src', hsrc, h⟩ := bind_eq_ok.mp h
      cases h
      rw [hload hsrc]
    · obtain ⟨src', hsrc, h⟩ := bind_eq_ok.mp h
      cases h
      rw [hload hsrc]
    · obtain ⟨src', hsrc, h⟩ := bind_eq_ok.mp h
      obtain ⟨⟨rest, j, p⟩, hrest, h⟩ := bind_eq_ok.mp h
      cases h
      rw [ih hrest, ok_bind, List.length_append, hload hsrc]

/-- The write node is the last one, and the nodes before it are full. -/
structure WritesAt (b : AbstractByteBuffer) (init : List Node) (last : Node) : Prop where
  nodes : b.nodes = init ++ [last]
  place : b.currentWriteNode = init.length
  pos : b.currentWritePos = last.length
  full : ∀ node ∈ init, node.length = node.cap

/-- The read node. -/
structure ReadsAt (b : AbstractByteBuffer) (front : List Node) (node : Node) (back : List Node) :
    Prop where
  nodes : b.nodes = front ++ node :: back
  place : b.currentReadNode = front.length
  pos_le : b.currentReadPos ≤ node.length

/-- The chain holds the queue; its last node may be new. -/
structure Chained (b : AbstractByteBuffer) (q : CursorQueue UInt8) : Prop where
  ok : ∀ node ∈ b.nodes, node.Ok
  factor : 0 < b.factor
  write : ∃ init last, b.WritesAt init last
  read : ∃ front node back, b.ReadsAt front node back ∧
    q.cursor = (contents front).length + b.currentReadPos
  stored : q.stored = contents b.nodes

/-- Between the calls no node behind the root is without an octet. -/
structure Represents (b : AbstractByteBuffer) (q : CursorQueue UInt8) : Prop extends Chained b q where
  filled : ∀ node ∈ b.nodes.tail, 0 < node.length

variable {b : AbstractByteBuffer} {q : CursorQueue UInt8}

theorem new_represents (base_size : ℕ) {factor : ℕ} (h : 0 < factor) :
    (new base_size factor).Represents .empty where
  ok := by
    intro node hnode
    rw [List.mem_singleton.mp hnode]
    exact Node.new_ok base_size
  filled := by simp [new]
  factor := h
  write := ⟨[], .new base_size, rfl, rfl, rfl, by simp⟩
  read := ⟨[], .new base_size, [], ⟨rfl, rfl, Nat.zero_le _⟩, rfl⟩
  stored := rfl

theorem ReadsAt.deref {front back : List Node} {node : Node} (h : b.ReadsAt front node back) :
    b.deref b.currentReadNode = .ok node := by
  rw [AbstractByteBuffer.deref, h.nodes, h.place, List.getElem?_append_right (Nat.le_refl _)]
  simp

theorem WritesAt.deref {init : List Node} {last : Node} (h : b.WritesAt init last) :
    b.deref b.currentWriteNode = .ok last := by
  rw [AbstractByteBuffer.deref, h.nodes, h.place, List.getElem?_append_right (Nat.le_refl _)]
  simp

theorem WritesAt.setLast {b' : AbstractByteBuffer} {init : List Node} {last last' : Node}
    (h : b.WritesAt init last) (hnodes : b'.nodes = b.nodes.set b.currentWriteNode last')
    (hplace : b'.currentWriteNode = b.currentWriteNode) (hpos : b'.currentWritePos = last'.length) :
    b'.WritesAt init last' where
  nodes := by
    rw [hnodes, h.nodes, h.place, List.set_append_right _ _ (Nat.le_refl _), Nat.sub_self]
    rfl
  place := hplace.trans h.place
  pos := hpos
  full := h.full

theorem WritesAt.root {init : List Node} {last : Node} (h : b.WritesAt init last) :
    ∃ root nodes, b.nodes = root :: nodes := by
  rw [h.nodes]
  cases init with
  | nil => exact ⟨last, [], rfl⟩
  | cons root init => exact ⟨root, init ++ [last], rfl⟩

theorem Represents.unread {front back : List Node} {node : Node} (h : b.Represents q)
    (hread : b.ReadsAt front node back)
    (hcursor : q.cursor = (contents front).length + b.currentReadPos) :
    q.unread = node.data.drop b.currentReadPos ++ contents back := by
  have hnode : node.Ok := h.ok node (by rw [hread.nodes]; simp)
  rw [CursorQueue.unread, h.stored, hread.nodes, hcursor, contents_append, contents_cons,
    ← List.drop_drop, List.drop_left, List.drop_append_of_le_length]
  rw [hnode.length_data]
  exact hread.pos_le

theorem Represents.readLoop {need : ℕ} (h : b.Represents q) :
    ∃ i pos, readLoop b.currentWriteNode (b.nodes.drop b.currentReadNode) b.currentReadNode
        b.currentReadPos need = .ok (q.unread.take need, i, pos) ∧
      ({ b with currentReadNode := i, currentReadPos := pos } : AbstractByteBuffer).Represents
        (q.advance need) := by
  obtain ⟨front, node, back, hread, hcursor⟩ := h.read
  obtain ⟨init, last, hwrite⟩ := h.write
  have hok : ∀ n ∈ node :: back, n.Ok := by
    intro n hn
    apply h.ok
    rw [hread.nodes]
    exact List.mem_append_right _ hn
  have hlast : b.currentWriteNode = b.currentReadNode + back.length := by
    have hlen := congrArg List.length (hwrite.nodes.symm.trans hread.nodes)
    simp only [List.length_append, List.length_cons, List.length_nil] at hlen
    rw [hwrite.place, hread.place]
    omega
  have hdrop : b.nodes.drop b.currentReadNode = node :: back := by
    rw [hread.nodes, hread.place, List.drop_left]
  have hunread := h.unread hread hcursor
  obtain ⟨skipped, node', back', pos', hsplit, hpos', hcount, hloop⟩ :=
    readLoop_eq hok hread.pos_le b.currentReadNode need
  rw [← hunread] at hcount hloop
  refine ⟨b.currentReadNode + skipped.length, pos', by rw [hlast, hdrop, hloop], ?_⟩
  have hnodes : b.nodes = (front ++ skipped) ++ node' :: back' := by
    rw [hread.nodes, hsplit, List.append_assoc]
  have hplace : b.currentReadNode + skipped.length = (front ++ skipped).length := by
    rw [List.length_append, hread.place]
  have hcursor' : q.cursor + min need q.unread.length = (contents (front ++ skipped)).length + pos' := by
    rw [contents_append, List.length_append]
    omega
  exact {
    ok := h.ok
    filled := h.filled
    factor := h.factor
    write := ⟨init, last, hwrite.nodes, hwrite.place, hwrite.pos, hwrite.full⟩
    read := ⟨front ++ skipped, node', back', ⟨hnodes, hplace, hpos'⟩, hcursor'⟩
    stored := h.stored }

theorem Represents.read_eq (h : b.Represents q) (n : ℕ) :
    ∃ b', b.read n = .ok (q.unread.take n, b') ∧ b'.Represents (q.advance n) := by
  obtain ⟨i, pos, hloop, hb'⟩ := h.readLoop
  exact ⟨_, by rw [AbstractByteBuffer.read, hloop, ok_bind], hb'⟩

theorem Represents.peek_eq (h : b.Represents q) (n : ℕ) : b.peek n = .ok (q.unread.take n) := by
  obtain ⟨i, pos, hloop, -⟩ := h.readLoop
  rw [AbstractByteBuffer.peek, hloop, ok_bind]

theorem Represents.trunc_eq (h : b.Represents q) (n : ℕ) :
    ∃ b', b.trunc n = .ok (min n q.unread.length, b') ∧ b'.Represents (q.advance n) := by
  obtain ⟨i, pos, hloop, hb'⟩ := h.readLoop
  have hcount := truncLoop_of_readLoop hloop
  rw [List.length_take] at hcount
  exact ⟨_, by rw [AbstractByteBuffer.trunc, hcount, ok_bind], hb'⟩

theorem Represents.resetPos (h : b.Represents q) : b.resetPos.Represents q.rewind := by
  obtain ⟨init, last, hwrite⟩ := h.write
  obtain ⟨root, nodes, hroot⟩ := hwrite.root
  exact {
    ok := h.ok
    filled := h.filled
    factor := h.factor
    write := ⟨init, last, hwrite.nodes, hwrite.place, hwrite.pos, hwrite.full⟩
    read := ⟨[], root, nodes, ⟨hroot, rfl, Nat.zero_le _⟩, rfl⟩
    stored := h.stored }

theorem Represents.freeCapacity (h : b.Represents q) : b.freeCapacity.2.Represents .empty := by
  obtain ⟨init, last, hwrite⟩ := h.write
  obtain ⟨root, nodes, hroot⟩ := hwrite.root
  have hnodes : b.freeCapacity.2.nodes = [{ root with length := 0 }] := by
    change (b.nodes.take 1).map _ = _
    rw [hroot]
    rfl
  have hroot' := h.ok root (by rw [hroot]; exact List.mem_cons_self)
  exact {
    ok := by
      intro node hnode
      rw [hnodes, List.mem_singleton] at hnode
      rw [hnode]
      exact ⟨Nat.zero_le _, hroot'.buffer⟩
    filled := by simp [hnodes]
    factor := h.factor
    write := ⟨[], _, hnodes, rfl, rfl, by simp⟩
    read := ⟨[], _, [], ⟨hnodes, rfl, Nat.zero_le _⟩, rfl⟩
    stored := by
      rw [hnodes]
      simp [Node.data, CursorQueue.empty] }

theorem Chained.fill {b' : AbstractByteBuffer} {init : List Node} {last last' : Node} {data : Bytes}
    (h : b.Chained q) (hwrite : b.WritesAt init last) (hok : last'.Ok)
    (hdata : last'.data = last.data ++ data) (hlength : last.length ≤ last'.length)
    (hwrite' : b'.WritesAt init last') (hread : b'.currentReadNode = b.currentReadNode)
    (hpos : b'.currentReadPos = b.currentReadPos) (hfactor : b'.factor = b.factor) :
    b'.Chained (q.append data) := by
  obtain ⟨front, node, back, hreads, hcursor⟩ := h.read
  have hnodes := hwrite.nodes.symm.trans hreads.nodes
  refine ⟨?_, hfactor ▸ h.factor, ⟨init, last', hwrite'⟩, ?_, ?_⟩
  · intro n hn
    rw [hwrite'.nodes] at hn
    rcases List.mem_append.mp hn with hn | hn
    · apply h.ok
      rw [hwrite.nodes]
      exact List.mem_append_left _ hn
    · rwa [List.mem_singleton.mp hn]
  · cases back using List.reverseRecOn with
    | nil =>
      -- the read node is the one that is written to
      obtain ⟨hinit, hlast⟩ := List.append_inj' hnodes rfl
      cases hlast
      subst hinit
      refine ⟨init, last', [], ⟨hwrite'.nodes, hread.trans hreads.place, ?_⟩, ?_⟩
      · rw [hpos]
        exact hreads.pos_le.trans hlength
      · rw [hpos]
        exact hcursor
    | append_singleton back last₀ _ =>
      rw [← List.cons_append, ← List.append_assoc] at hnodes
      obtain ⟨hinit, hlast⟩ := List.append_inj' hnodes rfl
      refine ⟨front, node, back ++ [last'], ⟨?_, hread.trans hreads.place, ?_⟩, ?_⟩
      · rw [hwrite'.nodes, hinit, List.append_assoc]
        rfl
      · rw [hpos]
        exact hreads.pos_le
      · rw [hpos]
        exact hcursor
  · rw [hwrite'.nodes, contents_append, contents_cons, hdata, contents_nil, List.append_nil]
    change q.stored ++ data = _
    rw [h.stored, hwrite.nodes, contents_append, contents_cons, contents_nil, List.append_nil,
      List.append_assoc]

theorem Chained.addNode {b' : AbstractByteBuffer} {init : List Node} {last : Node} {buffer_size : ℕ}
    (h : b.Chained q) (hwrite : b.WritesAt init last) (hfull : last.length = last.cap)
    (hnodes : b'.nodes = b.nodes ++ [.new buffer_size])
    (hplace : b'.currentWriteNode = b.currentWriteNode + 1) (hwritePos : b'.currentWritePos = 0)
    (hread : b'.currentReadNode = b.currentReadNode) (hpos : b'.currentReadPos = b.currentReadPos)
    (hfactor : b'.factor = b.factor) :
    b'.Chained q ∧ b'.WritesAt (init ++ [last]) (.new buffer_size) := by
  obtain ⟨front, node, back, hreads, hcursor⟩ := h.read
  have hwrite' : b'.WritesAt (init ++ [last]) (.new buffer_size) := by
    refine ⟨by rw [hnodes, hwrite.nodes], ?_, hwritePos, ?_⟩
    · rw [hplace, hwrite.place, List.length_append, List.length_singleton]
    · intro n hn
      rcases List.mem_append.mp hn with hn | hn
      · exact hwrite.full n hn
      · rwa [List.mem_singleton.mp hn]
  refine ⟨⟨?_, hfactor ▸ h.factor, ⟨_, _, hwrite'⟩, ?_, ?_⟩, hwrite'⟩
  · intro n hn
    rw [hnodes] at hn
    rcases List.mem_append.mp hn with hn | hn
    · exact h.ok n hn
    · rw [List.mem_singleton.mp hn]
      exact Node.new_ok buffer_size
  · refine ⟨front, node, back ++ [.new buffer_size], ⟨?_, hread.trans hreads.place, ?_⟩, ?_⟩
    · rw [hnodes, hreads.nodes, List.append_assoc]
      rfl
    · rw [hpos]
      exact hreads.pos_le
    · rw [hpos]
      exact hcursor
  · rw [hnodes, contents_append, contents_cons, Node.data_new, contents_nil, List.append_nil,
      List.append_nil]
    exact h.stored

/-- The nodes behind the root are filled when the last one is. -/
theorem filled_append {init : List Node} {last : Node} (h : ∀ node ∈ init.tail, 0 < node.length)
    (hlast : init ≠ [] → 0 < last.length) : ∀ node ∈ (init ++ [last]).tail, 0 < node.length := by
  cases init with
  | nil => simp
  | cons root init =>
    intro node hnode
    rcases List.mem_append.mp hnode with hnode | hnode
    · exact h node hnode
    · rw [List.mem_singleton.mp hnode]
      exact hlast (List.cons_ne_nil root init)

theorem writeLoop_eq {fuel : ℕ} {data : Bytes} {init : List Node} {last : Node} (h : b.Chained q)
    (hwrite : b.WritesAt init last)
    (hfuel : data.length + 2 ≤ fuel ∨ data.length + 1 ≤ fuel ∧ last.length < last.cap)
    (hfilled : ∀ node ∈ init.tail, 0 < node.length) (hcap : init ≠ [] → 0 < last.cap)
    (hlast : init ≠ [] → 0 < last.length + data.length) :
    ∃ b', writeLoop fuel b data = .ok (data.length, b') ∧ b'.Represents (q.append data) := by
  induction fuel generalizing b q data init last with
  | zero => omega
  | succ fuel ih =>
    have hok : last.Ok := h.ok last (by rw [hwrite.nodes]; simp)
    have hle := hok.length_le
    by_cases hroom : data.length ≤ last.cap - last.length
    · obtain ⟨buffer, hstore, hnode⟩ := hok.store_eq data (by omega)
      obtain ⟨hok', hdata⟩ := hnode _ rfl
      let b' : AbstractByteBuffer := { b with
        nodes := b.nodes.set b.currentWriteNode ⟨buffer, last.length + data.length, last.cap⟩
        currentWritePos := last.length + data.length }
      have hwrite' : b'.WritesAt init ⟨buffer, last.length + data.length, last.cap⟩ :=
        hwrite.setLast rfl rfl rfl
      refine ⟨b', ?_, h.fill hwrite hok' hdata (Nat.le_add_right _ _) hwrite' rfl rfl rfl, ?_⟩
      · rw [writeLoop, hwrite.deref, ok_bind]
        dsimp only
        rw [if_pos hroom, hwrite.pos, hstore, ok_bind]
      · rw [hwrite'.nodes]
        exact filled_append hfilled hlast
    · obtain ⟨buffer, hstore, hnode⟩ := hok.store_eq (data.take (last.cap - last.length)) (by
        rw [List.length_take]
        omega)
      have htake : (data.take (last.cap - last.length)).length = last.cap - last.length := by
        rw [List.length_take]
        omega
      obtain ⟨hok', hdata⟩ := hnode last.cap (by omega)
      let b₁ : AbstractByteBuffer := { b with
        nodes := init ++ [⟨buffer, last.cap, last.cap⟩]
        currentWritePos := last.cap }
      let b₂ : AbstractByteBuffer := { b with
        nodes := b.nodes.take b.currentWriteNode ++ [⟨buffer, last.cap, last.cap⟩, .new b.factor]
        length := b.length + last.cap
        cap := b.cap + b.factor
        currentWritePos := 0
        currentWriteNode := b.currentWriteNode + 1 }
      have hwrite₁ : b₁.WritesAt init ⟨buffer, last.cap, last.cap⟩ :=
        ⟨rfl, hwrite.place, rfl, hwrite.full⟩
      have hchained₁ : b₁.Chained (q.append (data.take (last.cap - last.length))) :=
        h.fill hwrite hok' hdata hle hwrite₁ rfl rfl rfl
      have hnodes₂ : b₂.nodes = b₁.nodes ++ [.new b.factor] := by
        change b.nodes.take _ ++ _ = _
        rw [hwrite.nodes, hwrite.place, List.take_left, List.append_assoc]
        rfl
      have hgrown : b₂.Chained _ ∧ b₂.WritesAt _ _ :=
        hchained₁.addNode hwrite₁ rfl hnodes₂ rfl rfl rfl rfl rfl
      obtain ⟨hchained₂, hwrite₂⟩ := hgrown
      have hdrop : (data.drop (last.cap - last.length)).length =
          data.length - (last.cap - last.length) := List.length_drop
      have hfuel₂ : (data.drop (last.cap - last.length)).length + 1 ≤ fuel := by
        rw [hdrop]
        omega
      obtain ⟨b', hloop, hb'⟩ := ih hchained₂ hwrite₂ (.inr ⟨hfuel₂, h.factor⟩)
        (filled_append hfilled hcap) (fun _ => h.factor) (fun _ => by rw [hdrop]; omega)
      refine ⟨b', ?_, ?_⟩
      · rw [writeLoop, hwrite.deref, ok_bind]
        dsimp only
        rw [if_neg hroom, hwrite.pos, hstore, ok_bind, hloop, ok_bind, hdrop]
        congr 2
        omega
      · have happend : (q.append (data.take (last.cap - last.length))).append
            (data.drop (last.cap - last.length)) = q.append data := by
          apply CursorQueue.ext
          · change (q.stored ++ _) ++ _ = q.stored ++ data
            rw [List.append_assoc, List.take_append_drop]
          · rfl
        rwa [happend] at hb'

theorem Represents.write_eq (h : b.Represents q) (data : Bytes) :
    ∃ b', b.write data = .ok (data.length, b') ∧ b'.Represents (q.append data) := by
  obtain ⟨init, last, hwrite⟩ := h.write
  have hfilled : ∀ node ∈ init.tail, 0 < node.length := by
    intro node hnode
    apply h.filled
    rw [hwrite.nodes]
    cases init with
    | nil => cases hnode
    | cons root init => exact List.mem_append_left _ hnode
  have hlast : init ≠ [] → 0 < last.length := by
    intro hinit
    apply h.filled
    rw [hwrite.nodes]
    cases init with
    | nil => exact absurd rfl hinit
    | cons root init => exact List.mem_append_right _ (List.mem_singleton_self last)
  have hle : last.length ≤ last.cap := (h.ok last (by rw [hwrite.nodes]; simp)).length_le
  exact writeLoop_eq h.toChained hwrite (.inl (Nat.le_refl _)) hfilled
    (fun hinit => (hlast hinit).trans_le hle) (fun hinit => Nat.add_pos_left (hlast hinit) _)

theorem sizeBehind_eq {i : ℕ} {nodes : List Node} {last : Node} (hi : b.currentWriteNode = i + nodes.length)
    (hpos : b.currentWritePos = last.length) (hfull : ∀ node ∈ nodes, node.length = node.cap)
    (hok : ∀ node ∈ nodes ++ [last], node.Ok) :
    b.sizeBehind i (nodes ++ [last]) = (contents (nodes ++ [last])).length := by
  induction nodes generalizing i with
  | nil =>
    have hlast := hok last (List.mem_singleton_self last)
    have hi' : i = b.currentWriteNode := hi.symm
    simp [sizeBehind, hi', hpos, hlast.length_data]
  | cons node nodes ih =>
    have hnode := hok node List.mem_cons_self
    have hi' : ¬ i = b.currentWriteNode := by
      rw [hi, List.length_cons]
      omega
    have hrest := ih (i := i + 1) (by rw [hi, List.length_cons]; omega)
      (fun n hn => hfull n (List.mem_cons_of_mem _ hn)) (fun n hn => hok n (List.mem_cons_of_mem _ hn))
    rw [List.cons_append, sizeBehind, if_neg hi', hrest, contents_cons, List.length_append,
      hnode.length_data, hfull node List.mem_cons_self]

theorem Represents.getReadableSize_eq (h : b.Represents q) :
    b.getReadableSize = .ok q.unread.length := by
  obtain ⟨front, node, back, hread, hcursor⟩ := h.read
  obtain ⟨init, last, hwrite⟩ := h.write
  have hnode : node.Ok := h.ok node (by rw [hread.nodes]; simp)
  have hdrop : b.nodes.drop (b.currentReadNode + 1) = back := by
    rw [hread.nodes, hread.place, ← List.drop_drop, List.drop_left]
    rfl
  have hbehind : b.sizeBehind (b.currentReadNode + 1) back = (contents back).length := by
    cases back using List.reverseRecOn with
    | nil => rfl
    | append_singleton back last' _ =>
      have hnodes := hwrite.nodes.symm.trans hread.nodes
      rw [← List.cons_append, ← List.append_assoc] at hnodes
      obtain ⟨hinit, hlast⟩ := List.append_inj' hnodes rfl
      cases hlast
      apply sizeBehind_eq
      · rw [hwrite.place, hread.place, hinit, List.length_append, List.length_cons]
        omega
      · exact hwrite.pos
      · intro n hn
        apply hwrite.full
        rw [hinit]
        exact List.mem_append_right _ (List.mem_cons_of_mem _ hn)
      · intro n hn
        apply h.ok
        rw [hread.nodes]
        exact List.mem_append_right _ (List.mem_cons_of_mem _ hn)
  rw [getReadableSize, hread.deref, ok_bind, hdrop, hbehind, h.unread hread hcursor,
    List.length_append, List.length_drop, hnode.length_data]

theorem Represents.eof_eq (h : b.Represents q) : b.eof = .ok (decide (q.unread = [])) := by
  obtain ⟨front, node, back, hread, hcursor⟩ := h.read
  have hnode : node.Ok := h.ok node (by rw [hread.nodes]; simp)
  have hnext : b.nodes[b.currentReadNode + 1]? = back.head? := by
    rw [hread.nodes, hread.place, List.getElem?_append_right (Nat.le_succ _)]
    cases back <;> simp
  have hpos := hread.pos_le
  have hdata : (node.data.drop b.currentReadPos).length = node.length - b.currentReadPos := by
    rw [List.length_drop, hnode.length_data]
  rw [eof, hread.deref, ok_bind, hnext, h.unread hread hcursor]
  by_cases hrest : node.length - b.currentReadPos ≠ 0
  · rw [if_pos hrest]
    have hne : node.data.drop b.currentReadPos ≠ [] := by
      intro hnil
      rw [hnil, List.length_nil] at hdata
      omega
    simp [hne]
  · rw [if_neg hrest, List.length_eq_zero_iff.mp (hdata.trans (not_not.mp hrest)), List.nil_append]
    cases back with
    | nil => rfl
    | cons next back =>
      have hfilled : 0 < next.length := by
        apply h.filled
        rw [hread.nodes]
        cases front <;> simp
      have hok : next.Ok := h.ok next (by rw [hread.nodes]; simp)
      have hne : next.data ≠ [] := by
        intro hnil
        have hlen := hok.length_data
        rw [hnil, List.length_nil] at hlen
        omega
      simp [hfilled.ne', hne]

def Node.copied (node : Node) : Node where
  buffer := overwrite (List.replicate node.cap 0) 0 node.data
  length := node.length
  cap := node.cap

theorem Node.Ok.copy_eq {node : Node} (h : node.Ok) :
    node.copy = .ok node.copied ∧ node.copied.Ok ∧ node.copied.data = node.data := by
  have hload : load node.buffer 0 node.length = .ok ((node.data.drop 0).take node.length) :=
    h.load_eq (Nat.zero_add _).le
  rw [List.drop_zero, List.take_of_length_le h.length_data.le] at hload
  have hroom : (Node.new node.cap).length + node.data.length ≤ (Node.new node.cap).cap := by
    rw [h.length_data]
    change 0 + node.length ≤ node.cap
    rw [Nat.zero_add]
    exact h.length_le
  obtain ⟨buffer, hstore, hnode⟩ := (Node.new_ok node.cap).store_eq node.data hroom
  obtain ⟨hok, hdata⟩ := hnode node.length (by rw [h.length_data]; exact (Nat.zero_add _).symm)
  have hbuffer : buffer = overwrite (List.replicate node.cap 0) 0 node.data := by
    have hfits : 0 + node.data.length ≤ (List.replicate node.cap (0 : UInt8)).length := by
      rw [List.length_replicate]
      exact hroom
    exact (Except.ok.inj ((if_pos hfits).symm.trans hstore)).symm
  subst hbuffer
  refine ⟨?_, hok, hdata⟩
  rw [Node.copy, hload, ok_bind]
  exact congrArg (· >>= _) hstore

theorem copy_nodes {nodes : List Node} (h : ∀ node ∈ nodes, node.Ok) :
    nodes.mapM Node.copy = .ok (nodes.map Node.copied) := by
  induction nodes with
  | nil => rfl
  | cons node nodes ih =>
    rw [List.mapM_cons, (h node List.mem_cons_self).copy_eq.1, ok_bind,
      ih fun n hn => h n (List.mem_cons_of_mem _ hn), ok_bind]
    rfl

theorem contents_copied {nodes : List Node} (h : ∀ node ∈ nodes, node.Ok) :
    contents (nodes.map Node.copied) = contents nodes := by
  induction nodes with
  | nil => rfl
  | cons node nodes ih =>
    rw [List.map_cons, contents_cons, (h node List.mem_cons_self).copy_eq.2.2,
      ih fun n hn => h n (List.mem_cons_of_mem _ hn), contents_cons]

theorem WritesAt.copied {b' : AbstractByteBuffer} {init : List Node} {last : Node}
    (h : b.WritesAt init last) (hnodes : b'.nodes = b.nodes.map Node.copied)
    (hplace : b'.currentWriteNode = b.currentWriteNode)
    (hpos : b'.currentWritePos = b.currentWritePos) :
    b'.WritesAt (init.map Node.copied) last.copied where
  nodes := by
    rw [hnodes, h.nodes, List.map_append]
    rfl
  place := by rw [hplace, h.place, List.length_map]
  pos := hpos.trans h.pos
  full := by
    intro n hn
    obtain ⟨node, hnode, rfl⟩ := List.mem_map.mp hn
    exact h.full node hnode

theorem Represents.copy_eq (h : b.Represents q) : ∃ b', b.copy = .ok b' ∧ b'.Represents q := by
  obtain ⟨init, last, hwrite⟩ := h.write
  obtain ⟨front, node, back, hread, hcursor⟩ := h.read
  have hwriteNode : b.currentWriteNode < b.nodes.length := by
    rw [hwrite.nodes, hwrite.place]
    simp
  have hreadNode : b.currentReadNode < b.nodes.length := by
    rw [hread.nodes, hread.place]
    simp
  let b' : AbstractByteBuffer := { b with nodes := b.nodes.map Node.copied }
  have hcopy : b.copy = .ok b' := by
    rw [copy, copy_nodes h.ok, ok_bind, if_pos hwriteNode, if_pos hreadNode]
  have hwrite' : b'.WritesAt (init.map Node.copied) last.copied := hwrite.copied rfl rfl rfl
  have hread' : b'.ReadsAt (front.map Node.copied) node.copied (back.map Node.copied) := by
    refine ⟨?_, ?_, hread.pos_le⟩
    · change b.nodes.map _ = _
      rw [hread.nodes, List.map_append, List.map_cons]
    · rw [List.length_map]
      exact hread.place
  refine ⟨b', hcopy, ⟨⟨?_, h.factor, ⟨_, _, hwrite'⟩, ⟨_, _, _, hread', ?_⟩, ?_⟩, ?_⟩⟩
  · rintro _ hcopied
    obtain ⟨n, hn, rfl⟩ := List.mem_map.mp hcopied
    exact (h.ok n hn).copy_eq.2.1
  · rw [contents_copied]
    · exact hcursor
    · intro n hn
      apply h.ok
      rw [hread.nodes]
      exact List.mem_append_left _ hn
  · exact h.stored.trans (contents_copied h.ok).symm
  · intro n' hcopied
    change n' ∈ (b.nodes.map Node.copied).tail at hcopied
    rw [← List.map_tail] at hcopied
    obtain ⟨n, hn, rfl⟩ := List.mem_map.mp hcopied
    exact h.filled n hn

inductive Call
  | write (data : Bytes)
  | read (need_read : ℕ)
  | peek (need_read : ℕ)
  | trunc (need_read : ℕ)
  | resetPos
  | freeCapacity
  | copy
  | eof
  | getReadableSize

inductive Reply
  | done
  | octets (src : Bytes)
  | count (n : ℕ)
  | flag (b : Bool)
  deriving DecidableEq

def step (b : AbstractByteBuffer) : Call → Except Fault (Reply × AbstractByteBuffer)
  | .write data => do
    let (n, b) ← b.write data
    .ok (.count n, b)
  | .read need_read => do
    let (src, b) ← b.read need_read
    .ok (.octets src, b)
  | .peek need_read => do
    let src ← b.peek need_read
    .ok (.octets src, b)
  | .trunc need_read => do
    let (n, b) ← b.trunc need_read
    .ok (.count n, b)
  | .resetPos => .ok (.done, b.resetPos)
  | .freeCapacity => .ok (.done, b.freeCapacity.2)
  | .copy => do
    let b ← b.copy
    .ok (.done, b)
  | .eof => do
    let end_ ← b.eof
    .ok (.flag end_, b)
  | .getReadableSize => do
    let n ← b.getReadableSize
    .ok (.count n, b)

def calls (b : AbstractByteBuffer) : List Call → Except Fault (List Reply × AbstractByteBuffer)
  | [] => .ok ([], b)
  | call :: rest => do
    let (reply, b) ← b.step call
    let (replies, b) ← b.calls rest
    .ok (reply :: replies, b)

/-- What a queue replies. -/
def queueStep (q : CursorQueue UInt8) : Call → Reply × CursorQueue UInt8
  | .write data => (.count data.length, q.append data)
  | .read n => (.octets (q.unread.take n), q.advance n)
  | .peek n => (.octets (q.unread.take n), q)
  | .trunc n => (.count (min n q.unread.length), q.advance n)
  | .resetPos => (.done, q.rewind)
  | .freeCapacity => (.done, .empty)
  | .copy => (.done, q)
  | .eof => (.flag (decide (q.unread = [])), q)
  | .getReadableSize => (.count q.unread.length, q)

def queueCalls (q : CursorQueue UInt8) : List Call → List Reply × CursorQueue UInt8
  | [] => ([], q)
  | call :: rest =>
    let (reply, q) := queueStep q call
    let (replies, q) := queueCalls q rest
    (reply :: replies, q)

theorem Represents.step_eq (h : b.Represents q) (call : Call) :
    ∃ b', b.step call = .ok ((queueStep q call).1, b') ∧ b'.Represents (queueStep q call).2 := by
  cases call with
  | write data =>
    obtain ⟨b', hwrite, hb'⟩ := h.write_eq data
    exact ⟨b', by rw [step, hwrite, ok_bind]; rfl, hb'⟩
  | read n =>
    obtain ⟨b', hread, hb'⟩ := h.read_eq n
    exact ⟨b', by rw [step, hread, ok_bind]; rfl, hb'⟩
  | peek n => exact ⟨b, by rw [step, h.peek_eq, ok_bind]; rfl, h⟩
  | trunc n =>
    obtain ⟨b', htrunc, hb'⟩ := h.trunc_eq n
    exact ⟨b', by rw [step, htrunc, ok_bind]; rfl, hb'⟩
  | resetPos => exact ⟨_, rfl, h.resetPos⟩
  | freeCapacity => exact ⟨_, rfl, h.freeCapacity⟩
  | copy =>
    obtain ⟨b', hcopy, hb'⟩ := h.copy_eq
    exact ⟨b', by rw [step, hcopy, ok_bind]; rfl, hb'⟩
  | eof => exact ⟨b, by rw [step, h.eof_eq, ok_bind]; rfl, h⟩
  | getReadableSize => exact ⟨b, by rw [step, h.getReadableSize_eq, ok_bind]; rfl, h⟩

theorem Represents.calls_eq (h : b.Represents q) (rest : List Call) :
    ∃ b', b.calls rest = .ok ((queueCalls q rest).1, b') ∧ b'.Represents (queueCalls q rest).2 := by
  induction rest generalizing b q with
  | nil => exact ⟨b, rfl, h⟩
  | cons call rest ih =>
    obtain ⟨b₁, hstep, hb₁⟩ := h.step_eq call
    obtain ⟨b₂, hcalls, hb₂⟩ := ih hb₁
    refine ⟨b₂, ?_, hb₂⟩
    rw [calls, hstep, ok_bind]
    dsimp only
    rw [hcalls, ok_bind]
    rfl

/-- Whatever the sizes of the nodes, a buffer replies to every sequence of calls what a queue
with a cursor replies, and holds the queue afterwards. -/
theorem calls_refine_queue (base_size : ℕ) {factor : ℕ} (hfactor : 1 ≤ factor) (list : List Call) :
    ∃ b, (new base_size factor).calls list = .ok ((queueCalls .empty list).1, b) ∧
      b.Represents (queueCalls .empty list).2 :=
  (new_represents base_size hfactor).calls_eq list

theorem calls_refine_queue_small :
    ∃ b, (new 0 2).calls [.write [1, 2, 3], .read 2, .copy, .write [4], .resetPos, .peek 9, .eof] =
        .ok ([.count 3, .octets [1, 2], .done, .count 1, .done, .octets [1, 2, 3, 4], .flag false], b) ∧
      b.Represents ⟨[1, 2, 3, 4], 0, by decide⟩ :=
  calls_refine_queue 0 (by decide : 1 ≤ 2)
    [.write [1, 2, 3], .read 2, .copy, .write [4], .resetPos, .peek 9, .eof]

end Sese.Io.AbstractByteBuffer
