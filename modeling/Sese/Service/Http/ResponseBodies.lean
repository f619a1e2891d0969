import Sese.Io.ByteAccounting
import Sese.Net.Http.HttpOutput
import Sese.Service.Http.HttpConnection

/-!
# The responses of a connection

The writes of `HttpConnection` for responses without a file: the header goes through
`dynamic_buffer` and the body through the buffer of the response, both in blocks. A connection that
is kept alive uses the two buffers again. `freeCapacity` empties a buffer and does not set its
`length` back, and `getLength`, which `content-length` is taken from, goes on from there.
-/
namespace Sese

open Foundation

namespace Io.AbstractByteBuffer

/-- The octets that have room in front of the `i`-th node. -/
def roomBefore (base_size factor : ℕ) : ℕ → ℕ
  | 0 => 0
  | i + 1 => base_size + factor * i

/-- How much of `n` octets is still counted when they were dropped. -/
def stillCounted (base_size factor n : ℕ) : ℕ :=
  if n ≤ base_size then 0 else base_size + factor * ((n - base_size - 1) / factor)

/-- The sizes of the nodes; `stale` octets were dropped and are still counted. -/
structure Paged (base_size factor stale : ℕ) (b : AbstractByteBuffer) : Prop where
  caps : b.nodes.map Node.cap = base_size :: List.replicate b.currentWriteNode factor
  grows : b.factor = factor
  length : b.length = stale + roomBefore base_size factor b.currentWriteNode

variable {base_size factor stale : ℕ} {b b' : AbstractByteBuffer} {q : CursorQueue UInt8}

theorem deref_eq_ok {i : ℕ} {node : Node} : b.deref i = .ok node ↔ b.nodes[i]? = some node := by
  rw [deref]
  cases b.nodes[i]? with
  | none => simp
  | some node' => simp

theorem Paged.cap_eq (h : b.Paged base_size factor stale) {node : Node}
    (hnode : b.deref b.currentWriteNode = .ok node) :
    roomBefore base_size factor b.currentWriteNode + node.cap =
      roomBefore base_size factor (b.currentWriteNode + 1) := by
  have hget := congrArg (Option.map Node.cap) (deref_eq_ok.mp hnode)
  rw [← List.getElem?_map, h.caps, Option.map_some] at hget
  cases hplace : b.currentWriteNode with
  | zero =>
    rw [hplace] at hget
    have hcap : base_size = node.cap := Option.some.inj hget
    simp [roomBefore, hcap]
  | succ i =>
    rw [hplace, List.getElem?_cons_succ, List.getElem?_replicate, if_pos (Nat.lt_succ_self i)] at hget
    have hcap : factor = node.cap := Option.some.inj hget
    rw [roomBefore, roomBefore, ← hcap, Nat.mul_succ, Nat.add_assoc]

theorem Paged.writeLoop {fuel n : ℕ} {data : Bytes} (h : b.Paged base_size factor stale)
    (hloop : writeLoop fuel b data = .ok (n, b')) : b'.Paged base_size factor stale := by
  induction fuel generalizing b data n with
  | zero => cases hloop
  | succ fuel ih =>
    rw [AbstractByteBuffer.writeLoop] at hloop
    obtain ⟨node, hnode, hloop⟩ := bind_eq_ok.mp hloop
    have hget := deref_eq_ok.mp hnode
    dsimp only at hloop
    split_ifs at hloop with hroom
    · obtain ⟨buffer, -, hloop⟩ := bind_eq_ok.mp hloop
      cases hloop
      refine ⟨?_, h.grows, h.length⟩
      obtain ⟨hlt, hsame⟩ := List.getElem?_eq_some_iff.mp hget
      have hplace : b.currentWriteNode < (b.nodes.map Node.cap).length := by rwa [List.length_map]
      have hcap : node.cap = (b.nodes.map Node.cap)[b.currentWriteNode] := by
        rw [List.getElem_map, hsame]
      dsimp only
      rw [List.map_set, hcap, List.set_getElem_self, h.caps]
    · obtain ⟨buffer, -, hloop⟩ := bind_eq_ok.mp hloop
      obtain ⟨⟨m, b₁⟩, hnext, hloop⟩ := bind_eq_ok.mp hloop
      cases hloop
      refine ih (b := { b with
        nodes := b.nodes.take b.currentWriteNode ++ [⟨buffer, node.cap, node.cap⟩, .new b.factor]
        length := b.length + node.cap
        cap := b.cap + b.factor
        currentWritePos := 0
        currentWriteNode := b.currentWriteNode + 1 }) ⟨?_, h.grows, ?_⟩ hnext
      · have hall : (b.nodes.map Node.cap).take b.currentWriteNode ++ [node.cap] =
            b.nodes.map Node.cap := by
          have hcap : (b.nodes.map Node.cap)[b.currentWriteNode]? = some node.cap := by
            rw [List.getElem?_map, hget, Option.map_some]
          have htake := List.take_add_one (l := b.nodes.map Node.cap) (i := b.currentWriteNode)
          rw [hcap, Option.toList_some] at htake
          rw [← htake, List.take_of_length_le]
          rw [h.caps, List.length_cons, List.length_replicate]
        dsimp only
        rw [List.map_append, List.map_take, List.map_cons, List.map_singleton, List.append_cons]
        change _ ++ [node.cap] ++ [b.factor] = _
        rw [hall, h.caps, h.grows, List.cons_append, ← List.replicate_succ']
      · dsimp only
        rw [h.length, Nat.add_assoc, h.cap_eq hnode]

theorem Paged.write {n : ℕ} {data : Bytes} (h : b.Paged base_size factor stale)
    (hwrite : b.write data = .ok (n, b')) : b'.Paged base_size factor stale := h.writeLoop hwrite

theorem Paged.read {n : ℕ} {src : Bytes} (h : b.Paged base_size factor stale)
    (hread : b.read n = .ok (src, b')) : b'.Paged base_size factor stale := by
  rw [AbstractByteBuffer.read] at hread
  obtain ⟨⟨src', i, pos⟩, -, hread⟩ := bind_eq_ok.mp hread
  cases hread
  exact ⟨h.caps, h.grows, h.length⟩

theorem sum_take_caps (base_size factor i : ℕ) :
    ((base_size :: List.replicate i factor).take i).sum = roomBefore base_size factor i := by
  cases i with
  | zero => rfl
  | succ i =>
    rw [List.take_succ_cons, List.take_replicate, min_eq_left (Nat.le_succ i), List.sum_cons,
      List.sum_replicate, roomBefore, smul_eq_mul, Nat.mul_comm]

/-- The octets of a buffer are those that are in front of the write node, and those in it. -/
theorem Paged.length_stored (h : b.Paged base_size factor stale) (hq : b.Represents q) {node : Node}
    (hnode : b.deref b.currentWriteNode = .ok node) :
    q.stored.length = roomBefore base_size factor b.currentWriteNode + node.length := by
  obtain ⟨init, last, hwrite⟩ := hq.write
  obtain rfl : last = node := Except.ok.inj (hwrite.deref.symm.trans hnode)
  have hcaps := h.caps
  rw [hwrite.nodes, List.map_append] at hcaps
  have hinit : init.map Node.cap = (base_size :: List.replicate b.currentWriteNode factor).take
      b.currentWriteNode := by
    rw [← hcaps, hwrite.place, ← List.length_map Node.cap, List.take_left]
  have hfull : init.map Node.length = init.map Node.cap := List.map_congr_left hwrite.full
  rw [hq.stored, length_contents hq.ok, hwrite.nodes, List.map_append, List.sum_append, hfull, hinit,
    sum_take_caps]
  rfl

/-- Only the last node has room, and it has an octet unless it is the root. -/
theorem Paged.stillCounted_eq (h : b.Paged base_size factor stale) (hq : b.Represents q) :
    stillCounted base_size factor q.stored.length = roomBefore base_size factor b.currentWriteNode := by
  obtain ⟨init, last, hwrite⟩ := hq.write
  have hlength := h.length_stored hq hwrite.deref
  have hcap := h.cap_eq hwrite.deref
  have hle : last.length ≤ last.cap := (hq.ok last (by rw [hwrite.nodes]; simp)).length_le
  have hfilled : b.currentWriteNode ≠ 0 → 0 < last.length := by
    intro hplace
    apply hq.filled
    rw [hwrite.nodes]
    cases init with
    | nil => exact absurd hwrite.place hplace
    | cons root init => exact List.mem_append_right _ (List.mem_singleton_self last)
  cases hplace : b.currentWriteNode with
  | zero =>
    rw [hplace, roomBefore] at hlength hcap
    rw [stillCounted, if_pos (by rw [hlength]; simp only [roomBefore] at hcap; omega), roomBefore]
  | succ i =>
    rw [hplace] at hlength hcap
    simp only [roomBefore, Nat.mul_succ] at hlength hcap
    have hpos := hfilled (by omega)
    have hrest : q.stored.length - base_size - 1 = (last.length - 1) + factor * i := by omega
    rw [stillCounted, if_neg (by omega), hrest, Nat.add_mul_div_left _ _ (by omega),
      Nat.div_eq_of_lt (by omega), Nat.zero_add, roomBefore]

theorem Paged.getLength_eq (h : b.Paged base_size factor stale) (hq : b.Represents q) :
    b.getLength = .ok (stale + q.stored.length) := by
  obtain ⟨init, last, hwrite⟩ := hq.write
  rw [getLength, hwrite.deref, ok_bind, h.length, h.length_stored hq hwrite.deref, Nat.add_assoc]

/-- What was in front of the write node is still counted when the buffer is empty. -/
theorem Paged.freeCapacity (h : b.Paged base_size factor stale) (hq : b.Represents q) :
    b.freeCapacity.2.Paged base_size factor (stale + stillCounted base_size factor q.stored.length) where
  caps := by
    obtain ⟨init, last, hwrite⟩ := hq.write
    obtain ⟨root, nodes, hroot⟩ := hwrite.root
    have hcaps := h.caps
    rw [hroot, List.map_cons] at hcaps
    change ((b.nodes.take 1).map fun root => { root with length := 0 }).map Node.cap = [base_size]
    rw [hroot]
    exact congrArg (fun cap => [cap]) (List.cons.inj hcaps).1
  grows := h.grows
  length := by
    rw [h.stillCounted_eq hq]
    exact h.length

/-- The parts of something are written one after another. -/
def writeAll : List Bytes → AbstractByteBuffer → Except Fault AbstractByteBuffer
  | [], b => .ok b
  | data :: rest, b => do
    let (_, b) ← b.write data
    writeAll rest b

theorem Represents.writeAll_eq (hq : b.Represents q) (h : b.Paged base_size factor stale)
    (parts : List Bytes) :
    ∃ b', writeAll parts b = .ok b' ∧ b'.Represents (q.append parts.flatten) ∧
      b'.Paged base_size factor stale := by
  induction parts generalizing b q with
  | nil =>
    have hsame : q.append ([] : List Bytes).flatten = q := CursorQueue.ext (List.append_nil _) rfl
    exact ⟨b, rfl, hsame.symm ▸ hq, h⟩
  | cons data parts ih =>
    obtain ⟨b₁, hwrite, hq₁⟩ := hq.write_eq data
    obtain ⟨b', hall, hq', h'⟩ := ih hq₁ (h.write hwrite)
    refine ⟨b', ?_, ?_, h'⟩
    · rw [writeAll, hwrite, ok_bind]
      exact hall
    · have hsame : (q.append data).append parts.flatten = q.append (data :: parts).flatten :=
        CursorQueue.ext (List.append_assoc _ _ _) rfl
      rwa [hsame] at hq'

end Io.AbstractByteBuffer

namespace Service.Http

open Io (AbstractByteBuffer)
open Io.AbstractByteBuffer
open Sese.Net.Http

/-- `writeHeader` and `writeBody`: the blocks that are written, if no write fails. -/
def writeBlocks : ℕ → ℕ → ℕ → AbstractByteBuffer → Except Fault (List Bytes × AbstractByteBuffer)
  | 0, _, _, _ => .error .endlessLoop
  | fuel + 1, expectLength, realLength, buffer => do
    let (data, buffer) ← buffer.read (min (expectLength - realLength) mtuValue)
    if expectLength > realLength + data.length then do
      let (rest, buffer) ← writeBlocks fuel expectLength (realLength + data.length) buffer
      .ok (data :: rest, buffer)
    else .ok ([data], buffer)

def writeBody (body : AbstractByteBuffer) : Except Fault (List Bytes × AbstractByteBuffer) := do
  let expectLength ← body.getReadableSize
  if expectLength = 0 then .ok ([], body) else writeBlocks (expectLength + 1) expectLength 0 body

/-- A request, as a servlet has answered it, and the writes of the servlet to the body. -/
structure Exchange where
  handleable : Handleable
  parts : List Bytes

def Exchange.body (x : Exchange) : Bytes := x.parts.flatten

/-- What `sendResponse` writes for a response. -/
def sentHead (h : Handleable) : Bytes :=
  (sendResponse { code := .ofNat h.response.code, header := h.response.header }).2

/-- The header with this length and the fields that all responses get. -/
def headOctets (serv : HttpServiceImpl) (h : Handleable) (length : ℕ) : Bytes :=
  sentHead (serv.uniFields (h.set "content-length" (toDecimal length)))

/-- The response is not given to the tail filter, which may change all of it. -/
def TailSpared (serv : HttpServiceImpl) (x : Exchange) : Prop :=
  serv.tailFilter = none ∨ x.handleable.response.code = 200 ∨ x.handleable.response.code = 201

theorem TailSpared.uniHandle_eq {serv : HttpServiceImpl} {x : Exchange} (h : TailSpared serv x)
    (length : ℕ) : sentHead (serv.uniHandle (x.handleable.set "content-length" (toDecimal length))) =
      headOctets serv x.handleable length := by
  have hcode (h : Handleable) : (serv.uniFields h).response.code = h.response.code := by
    unfold HttpServiceImpl.uniFields
    dsimp only
    split_ifs <;> rfl
  have hcode' : (serv.uniFields (x.handleable.set "content-length" (toDecimal length))).response.code =
      x.handleable.response.code := hcode _
  rw [headOctets, HttpServiceImpl.uniHandle]
  rcases h with hnone | hspared
  · rw [hnone]
  · dsimp only
    cases serv.tailFilter with
    | none => rfl
    | some tailFilter =>
      dsimp only
      rw [hcode', if_pos hspared]

/-- The buffers of a connection that responses go through. -/
structure Outgoing where
  dynamicBuffer : AbstractByteBuffer := .new 1024 1024
  body : AbstractByteBuffer := .new 8192 1024

/-- A response: the announced length, and the blocks of its header and of its body. -/
structure Sent where
  announced : ℕ
  head : List Bytes
  body : List Bytes

/-- From `handleRequest` to `reset`. What a tail filter does to the body is left out. -/
def Outgoing.respond (serv : HttpServiceImpl) (out : Outgoing) (x : Exchange) :
    Except Fault (Sent × Outgoing) := do
  let body ← writeAll x.parts out.body
  let announced ← body.getLength
  let handleable := serv.uniHandle (x.handleable.set "content-length" (toDecimal announced))
  let dynamicBuffer ← writeAll [sentHead handleable] out.dynamicBuffer
  let expectLength ← dynamicBuffer.getReadableSize
  let (head, dynamicBuffer) ← writeBlocks (expectLength + 1) expectLength 0 dynamicBuffer
  let dynamicBuffer := dynamicBuffer.freeCapacity.2
  let (blocks, body) ← writeBody body
  .ok ({ announced, head, body := blocks }, { dynamicBuffer, body := body.freeCapacity.2 })

theorem writeBlocks_eq {fuel expectLength realLength base_size factor stale : ℕ}
    {b : AbstractByteBuffer} {q : CursorQueue UInt8} (hq : b.Represents q)
    (h : b.Paged base_size factor stale) (hfuel : q.unread.length < fuel)
    (hexpect : expectLength = realLength + q.unread.length) :
    ∃ blocks b' q', writeBlocks fuel expectLength realLength b = .ok (blocks, b') ∧
      blocks.flatten = q.unread ∧ (∀ block ∈ blocks, block.length ≤ mtuValue) ∧
      b'.Represents q' ∧ q'.stored = q.stored ∧ b'.Paged base_size factor stale := by
  induction fuel generalizing realLength b q with
  | zero => exact absurd hfuel (Nat.not_lt_zero _)
  | succ fuel ih =>
    have hmtu : 0 < mtuValue := by decide
    obtain ⟨b₁, hread, hq₁⟩ := hq.read_eq (min (expectLength - realLength) mtuValue)
    have hlength : (q.unread.take (min (expectLength - realLength) mtuValue)).length =
        min q.unread.length mtuValue := by
      rw [List.length_take]
      omega
    have hsmall : (q.unread.take (min (expectLength - realLength) mtuValue)).length ≤ mtuValue := by
      omega
    rw [writeBlocks, hread, ok_bind]
    dsimp only
    split_ifs with hmore
    · have hrest : (q.advance (min (expectLength - realLength) mtuValue)).unread =
          q.unread.drop (min (expectLength - realLength) mtuValue) := CursorQueue.unread_advance _ _
      have hcount := congrArg List.length hrest
      rw [List.length_drop] at hcount
      have hexpect' : expectLength = realLength +
          (q.unread.take (min (expectLength - realLength) mtuValue)).length +
          (q.advance (min (expectLength - realLength) mtuValue)).unread.length := by omega
      obtain ⟨blocks, b', q', hblocks, hflat, hall, hq', hstored, h'⟩ :=
        ih hq₁ (h.read hread) (by omega) hexpect'
      refine ⟨_, b', q', by rw [hblocks, ok_bind], ?_, ?_, hq', hstored, h'⟩
      · rw [List.flatten_cons, hflat, hrest, List.take_append_drop]
      · exact List.forall_mem_cons.mpr ⟨hsmall, hall⟩
    · refine ⟨_, b₁, _, rfl, ?_, ?_, hq₁, rfl, h.read hread⟩
      · rw [List.flatten_singleton, List.take_of_length_le]
        omega
      · exact List.forall_mem_singleton.mpr hsmall

theorem writeBody_eq {base_size factor stale : ℕ} {b : AbstractByteBuffer} {q : CursorQueue UInt8}
    (hq : b.Represents q) (h : b.Paged base_size factor stale) :
    ∃ blocks b' q', writeBody b = .ok (blocks, b') ∧ blocks.flatten = q.unread ∧
      (∀ block ∈ blocks, block.length ≤ mtuValue) ∧
      b'.Represents q' ∧ q'.stored = q.stored ∧ b'.Paged base_size factor stale := by
  rw [writeBody, hq.getReadableSize_eq, ok_bind]
  split_ifs with hempty
  · refine ⟨[], b, q, rfl, ?_, ?_, hq, rfl, h⟩
    · rw [List.flatten_nil, List.length_eq_zero_iff.mp hempty]
    · exact fun block hblock => absurd hblock List.not_mem_nil
  · exact writeBlocks_eq hq h (Nat.lt_succ_self _) (Nat.zero_add _).symm

/-- The buffers are empty, and `stale` octets of earlier bodies are still counted. -/
structure Outgoing.Idle (out : Outgoing) (stale : ℕ) : Prop where
  dynamicBuffer : out.dynamicBuffer.Represents .empty
  headers : ∃ stale, out.dynamicBuffer.Paged 1024 1024 stale
  body : out.body.Represents .empty
  bodies : out.body.Paged 8192 1024 stale

/-- The octets of `x` were sent, in blocks that the send buffer has room for. -/
structure Sent.Answers (serv : HttpServiceImpl) (x : Exchange) (sent : Sent) : Prop where
  head : sent.head.flatten = headOctets serv x.handleable sent.announced
  body : sent.body.flatten = x.body
  blocks : ∀ block ∈ sent.head ++ sent.body, block.length ≤ mtuValue

theorem unread_append_empty (data : Bytes) :
    ((CursorQueue.empty : CursorQueue UInt8).append data).unread = data := rfl

theorem stored_append_empty (data : Bytes) :
    ((CursorQueue.empty : CursorQueue UInt8).append data).stored = data := rfl

theorem Outgoing.Idle.respond_eq {out : Outgoing} {stale : ℕ} (h : out.Idle stale)
    {serv : HttpServiceImpl} {x : Exchange} (hspared : TailSpared serv x) :
    ∃ sent out', out.respond serv x = .ok (sent, out') ∧ sent.Answers serv x ∧
      sent.announced = stale + x.body.length ∧
      out'.Idle (stale + stillCounted 8192 1024 x.body.length) := by
  obtain ⟨staleHeaders, hheaders⟩ := h.headers
  obtain ⟨body, hparts, hbody, hpaged⟩ := h.body.writeAll_eq h.bodies x.parts
  have hannounced := hpaged.getLength_eq hbody
  rw [stored_append_empty] at hannounced
  obtain ⟨dynamicBuffer, hhead, hdynamic, hheaders⟩ := h.dynamicBuffer.writeAll_eq hheaders
    [headOctets serv x.handleable (stale + x.parts.flatten.length)]
  rw [List.flatten_singleton] at hdynamic
  obtain ⟨head, dynamicBuffer', q, hblocks, hflat, hsmall, hq, hstored, hheaders'⟩ :=
    writeBlocks_eq hdynamic hheaders (Nat.lt_succ_self _) (Nat.zero_add _).symm
  obtain ⟨blocks, body', q', hbodyBlocks, hbodyFlat, hbodySmall, hq', hstored', hpaged'⟩ :=
    writeBody_eq hbody hpaged
  rw [unread_append_empty] at hblocks hflat
  refine ⟨⟨stale + x.parts.flatten.length, head, blocks⟩,
    ⟨dynamicBuffer'.freeCapacity.2, body'.freeCapacity.2⟩, ?_, ⟨hflat, hbodyFlat, ?_⟩, rfl, ?_⟩
  · rw [Outgoing.respond, hparts, ok_bind, hannounced, ok_bind]
    dsimp only
    rw [hspared.uniHandle_eq, hhead, ok_bind,
      hdynamic.getReadableSize_eq, ok_bind, unread_append_empty, hblocks, ok_bind]
    dsimp only
    rw [hbodyBlocks, ok_bind]
  · intro block hblock
    obtain hblock | hblock := List.mem_append.mp hblock
    · exact hsmall block hblock
    · exact hbodySmall block hblock
  · have hfreed := hpaged'.freeCapacity hq'
    rw [hstored', stored_append_empty] at hfreed
    exact {
      dynamicBuffer := hq.freeCapacity
      headers := ⟨_, hheaders'.freeCapacity hq⟩
      body := hq'.freeCapacity
      bodies := hfreed }

end Service.Http

end Sese
