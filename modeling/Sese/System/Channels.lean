import Sese.Foundation.Mailboxes
import Sese.Foundation.Runs
import Sese.System.IPC

/-!
# Runs of an IPC channel

The messages of each id form a queue, as long as every accepted frame ends within the
region and every `read` finds a zero behind the last frame. `write` provides for neither:
it accepts a frame that ends up to four octets behind the region, keeps no room for the zero
that `read` looks for and writes, and leaves what an earlier, longer queue has put behind the
new frame. A message of id 0 is a zero itself: `read` stops there, and what was queued behind
it is lost, but nothing outside the region is touched.
-/
namespace Sese

open Foundation

inductive ChannelOp
  | write (id : UInt32) (message : Bytes)
  | read (id : UInt32)

def ChannelOp.id : ChannelOp → UInt32
  | .write id _ => id
  | .read id => id

structure ChannelRun where
  channel : IPCChannel
  history : List (MailEvent UInt32 Bytes)

namespace ChannelRun

def start (buffer_size : ℕ) : ChannelRun where
  channel := .create buffer_size
  history := []

/-- One call, under the semaphore. -/
def step (s : ChannelRun) : ChannelOp → Except Fault ChannelRun
  | .write id message => do
    let (accepted, channel) ← s.channel.write id message
    .ok { channel, history := s.history ++
      [if accepted then .put id message else .refused id message] }
  | .read id => do
    let (list, channel) ← s.channel.read id
    .ok { channel, history := s.history ++ [.got id list] }

def ValidId (_ : ChannelRun) (op : ChannelOp) : Prop := op.id ≠ 0

/-- An accepted message has its frame within the region and a length that stays below `2^32`
with its header; a read finds four zero octets of the region at the tail. -/
def Clear (s : ChannelRun) : ChannelOp → Prop
  | .write _ message => s.channel.Fits message
  | .read _ => loadWord s.channel.buffer s.channel.tail = .ok 0

instance (s : ChannelRun) (op : ChannelOp) : Decidable (s.ValidId op) :=
  inferInstanceAs (Decidable (_ ≠ _))

instance (s : ChannelRun) (op : ChannelOp) : Decidable (s.Clear op) :=
  match op with
  | .write _ message => inferInstanceAs (Decidable (s.channel.Fits message))
  | .read _ => inferInstanceAs (Decidable (_ = _))

/-- Every `read` returned what had been written under its id since the last `read` of the
id, and the region holds what has not been read, in the order of arrival. -/
structure Delivers (s : ChannelRun) : Prop where
  fifo : Fifo s.history
  holds : s.channel.Holds (contents s.history)

theorem start_delivers (buffer_size : ℕ) : (start buffer_size).Delivers where
  fifo := .nil
  holds := IPCChannel.create_holds buffer_size

theorem Delivers.step {s : ChannelRun} {op : ChannelOp} (h : s.Delivers) (hid : s.ValidId op)
    (hclear : s.Clear op) : ∃ t, s.step op = .ok t ∧ t.Delivers := by
  cases op with
  | write id message =>
    have hid' : id ≠ 0 := hid
    obtain ⟨accepted, ch, hwrite, hholds⟩ := h.holds.write hid' hclear
    refine ⟨_, by rw [ChannelRun.step, hwrite, ok_bind], ?_⟩
    cases accepted with
    | true =>
      constructor
      · apply h.fifo.append
        intro k ms he
        cases he
      · rw [contents_append]
        exact hholds
    | false =>
      constructor
      · apply h.fifo.append
        intro k ms he
        cases he
      · rw [contents_append]
        exact hholds
  | read id =>
    obtain ⟨ch, hread, hholds⟩ := h.holds.read id hclear
    refine ⟨_, by rw [ChannelRun.step, hread, ok_bind], ?_⟩
    constructor
    · apply h.fifo.append
      intro k ms he
      cases he
      exact queueOf_contents id s.history
    · rw [contents_append]
      exact hholds

end ChannelRun

open ChannelRun

/-- In a run whose calls all meet the condition, the channel is a set of queues: the reads so
far returned what they had to, every id has its unread messages in the region, and the next
call that meets the condition comes back with the same properties. -/
theorem channel_delivers_of_clear {buffer_size : ℕ} {ops : List ChannelOp} {s : ChannelRun}
    (h : RunWhere step (fun s op => s.ValidId op ∧ s.Clear op) (start buffer_size) ops s) :
    Fifo s.history ∧
    (∃ q, s.channel.Holds q ∧ ∀ id, queueOf id q = sinceLast id s.history) ∧
    ∀ op, s.ValidId op → s.Clear op → ∃ t, s.step op = .ok t ∧ Fifo t.history := by
  have hs : s.Delivers := by
    refine h.invariant Delivers ?_ (start_delivers buffer_size)
    intro s op t hs hop hst
    obtain ⟨t', hst', ht'⟩ := hs.step hop.1 hop.2
    rw [hst] at hst'
    cases hst'
    exact ht'
  refine ⟨hs.fifo, ⟨contents s.history, hs.holds, fun id => queueOf_contents id _⟩, ?_⟩
  intro op hid hclear
  obtain ⟨t, hst, ht⟩ := hs.step hid hclear
  exact ⟨t, hst, ht.fifo⟩

theorem channel_delivers_of_clear_two_ids :
    ∃ s : ChannelRun,
      Fifo s.history ∧
      (∃ q, s.channel.Holds q ∧ ∀ id, queueOf id q = sinceLast id s.history) ∧
      (∀ op, s.ValidId op → s.Clear op → ∃ t, s.step op = .ok t ∧ Fifo t.history) ∧
      s.history = [.put 1 [65], .put 2 [], .put 1 [66, 67], .got 1 [[65], [66, 67]], .got 2 [[]]] := by
  obtain ⟨s, hrun, hs⟩ := exists_run_of_any step (fun s op => s.ValidId op ∧ s.Clear op) (start 64)
    [.write 1 [65], .write 2 [], .write 1 [66, 67], .read 1, .read 2]
    (fun s => s.history =
      [.put 1 [65], .put 2 [], .put 1 [66, 67], .got 1 [[65], [66, 67]], .got 2 [[]]])
    (by decide +kernel)
  obtain ⟨hfifo, hq, hnext⟩ := channel_delivers_of_clear hrun
  exact ⟨s, hfifo, hq, hnext, of_decide_eq_true hs⟩

/-- The second message is empty, and what follows its frame is the data of the first, which
has been read long ago. Here it looks like a message of one octet. -/
theorem channel_delivers_stale_message :
    ∃ s, RunWhere step ValidId (start 64)
      [.write 1 [2, 0, 0, 0, 1, 0, 0, 0, 120], .read 1, .write 2 [], .read 2] s ∧
      ¬ Fifo s.history := by
  obtain ⟨s, hrun, hs⟩ := exists_run_of_any step ValidId (start 64)
    [.write 1 [2, 0, 0, 0, 1, 0, 0, 0, 120], .read 1, .write 2 [], .read 2]
    (fun s => s.history = [.put 1 [2, 0, 0, 0, 1, 0, 0, 0, 120],
      .got 1 [[2, 0, 0, 0, 1, 0, 0, 0, 120]], .put 2 [], .got 2 [[], [120]]])
    (by decide +kernel)
  refine ⟨s, hrun, ?_⟩
  intro hfifo
  have hlast := hfifo _ 2 _ [] (by rw [of_decide_eq_true hs]; rfl : s.history = [.put 1
    [2, 0, 0, 0, 1, 0, 0, 0, 120], .got 1 [[2, 0, 0, 0, 1, 0, 0, 0, 120]], .put 2 []] ++ _)
  cases hlast

namespace IPCChannel

/-- The region starts with the frames of `q`; the tail is behind them, or behind a zero that
follows them. -/
structure Bounded (ch : IPCChannel) (q : List (UInt32 × Bytes)) : Prop where
  storable : ∀ e ∈ q, Storable e
  region : ∃ rest, ch.buffer = frames q ++ rest
  tail : ch.tail = (frames q).length ∨
    (frames q).length + 4 ≤ ch.tail ∧ loadWord ch.buffer (frames q).length = .ok 0

theorem Holds.bounded {ch : IPCChannel} {q : List (UInt32 × Bytes)} (h : ch.Holds q) :
    ch.Bounded q where
  storable := h.storable
  region := h.region
  tail := .inl h.tail

theorem loadWord_front {pre rest : Bytes} (rest' : Bytes) {pos : ℕ} (h : pos + 4 ≤ pre.length) :
    loadWord (pre ++ rest) pos = loadWord (pre ++ rest') pos := by
  have hwindow : ∀ post : Bytes, load (pre ++ post) pos 4 = .ok (window pre pos 4) := by
    intro post
    have hdrop : 4 ≤ (pre.drop pos).length := by
      rw [List.length_drop]
      omega
    rw [load, if_pos (by rw [List.length_append]; omega), window, window,
      List.drop_append_of_le_length (by omega), List.take_append_of_le_length hdrop]
  rw [loadWord, loadWord, hwindow, hwindow]

theorem Bounded.write {ch : IPCChannel} {q : List (UInt32 × Bytes)} (h : ch.Bounded q) (id : UInt32)
    {message : Bytes} (hfits : ch.Fits message) :
    ∃ accepted ch' q', ch.write id message = .ok (accepted, ch') ∧ ch'.Bounded q' := by
  by_cases hacc : ch.accepts (.ofNat message.length)
  · obtain ⟨hlen, hroom⟩ := hfits hacc
    obtain ⟨rest, hrest⟩ := h.region
    rcases h.tail with htail | ⟨htail, hzero⟩
    · have hholds : ch.Holds q := ⟨h.storable, htail, h.region⟩
      have hwrite := write_eq hacc hfits hrest htail id
      by_cases hid : id = 0
      · -- the id of this message ends the queue
        subst hid
        refine ⟨true, _, q, hwrite, h.storable, ⟨_, rfl⟩, .inr ⟨?_, ?_⟩⟩
        · dsimp only
          omega
        · simp only [frame, List.append_assoc]
          exact loadWord_append 0 rfl
      · have hst : Storable (id, message) := ⟨hid, hlen⟩
        exact ⟨true, _, q ++ [(id, message)], hwrite, (hholds.append hst rfl rfl).bounded⟩
    · have hsplit : ch.buffer = ch.buffer.take ch.tail ++ ch.buffer.drop ch.tail :=
        (List.take_append_drop _ _).symm
      have hlength : ch.tail = (ch.buffer.take ch.tail).length := by
        rw [List.length_take]
        omega
      have hfront : ∀ post : Bytes, ∃ rest', ch.buffer.take ch.tail ++ post = frames q ++ rest' := by
        intro post
        rw [hrest, List.take_append, List.take_of_length_le (by omega), List.append_assoc]
        exact ⟨_, rfl⟩
      have hwrite := write_eq hacc hfits hsplit hlength id
      refine ⟨true, _, q, hwrite, h.storable, hfront _, .inr ⟨?_, ?_⟩⟩
      · dsimp only
        omega
      · rw [hsplit] at hzero
        dsimp only
        rw [← hzero]
        exact loadWord_front _ (by omega)
  · exact ⟨false, ch, q, write_refused hacc id, h⟩

/-- The octets are frames, or none, and then four zero octets. -/
def Ended (b : Bytes) : Prop :=
  ∃ q rest, (∀ e ∈ q, Storable e) ∧ b = frames q ++ rest ∧ loadWord rest 0 = .ok 0

theorem loadWord_behind (pre rest : Bytes) : loadWord (pre ++ rest) pre.length = loadWord rest 0 := by
  simp [loadWord, load, window]

theorem Ended.append {q : List (UInt32 × Bytes)} {b : Bytes} (hq : ∀ e ∈ q, Storable e)
    (h : Ended b) : Ended (frames q ++ b) := by
  obtain ⟨stale, rest, hstale, rfl, hzero⟩ := h
  refine ⟨q ++ stale, rest, ?_, ?_, hzero⟩
  · exact List.forall_mem_append.mpr ⟨hq, hstale⟩
  · rw [frames, frames, frames, List.flatMap_append, List.append_assoc]

theorem Bounded.read {ch : IPCChannel} {q : List (UInt32 × Bytes)} (h : ch.Bounded q) (id : UInt32)
    (hended : (∃ q, ch.Holds q) → Ended (ch.buffer.drop ch.tail)) :
    ∃ list ch' q', ch.read id = .ok (list, ch') ∧ ch'.Bounded q' := by
  obtain ⟨rest, hrest⟩ := h.region
  have hbuffer : Ended ch.buffer := by
    rcases h.tail with htail | ⟨-, hzero⟩
    · have hbehind := hended ⟨q, h.storable, htail, h.region⟩
      rw [htail, hrest, List.drop_left] at hbehind
      rw [hrest]
      exact hbehind.append h.storable
    · rw [hrest, loadWord_behind] at hzero
      exact ⟨q, rest, h.storable, hrest, hzero⟩
  -- what is found behind the tail is read with the rest
  obtain ⟨found, rest', hfound, hregion, hzero⟩ := hbuffer
  have hend : loadWord ch.buffer (frames found).length = .ok 0 := by
    rw [hregion, loadWord_behind]
    exact hzero
  obtain ⟨ch', hread, hholds⟩ := read_frames hfound hregion id hend
  exact ⟨_, ch', _, hread, hholds.bounded⟩

end IPCChannel

namespace ChannelRun

/-- The condition on the state before a call. A message that is accepted has its frame within
the region, and its length with the header is below `2^32`. If what is in front of the tail are
frames of ids other than zero, a read finds four zero octets of the region behind the tail, at
once or behind frames that an earlier queue has left there. -/
def Inside (s : ChannelRun) : ChannelOp → Prop
  | .write _ message => s.channel.Fits message
  | .read _ => (∃ q, s.channel.Holds q) → IPCChannel.Ended (s.channel.buffer.drop s.channel.tail)

theorem Clear.inside {s : ChannelRun} {op : ChannelOp} (h : s.Clear op) : s.Inside op := by
  cases op with
  | write id message => exact h
  | read id =>
    rintro ⟨q, -, htail, rest, hrest⟩
    have hzero : loadWord s.channel.buffer s.channel.tail = .ok 0 := h
    rw [htail, hrest, IPCChannel.loadWord_behind] at hzero
    rw [htail, hrest, List.drop_left]
    exact ⟨[], rest, by simp, rfl, hzero⟩

/-- A call that meets the condition touches the region only, and comes back. -/
theorem step_inside {s : ChannelRun} {q : List (UInt32 × Bytes)} {op : ChannelOp}
    (h : s.channel.Bounded q) (hop : s.Inside op) :
    ∃ t q', s.step op = .ok t ∧ t.channel.Bounded q' := by
  cases op with
  | write id message =>
    obtain ⟨accepted, ch', q', hwrite, hbounded⟩ := h.write id hop
    exact ⟨_, q', by rw [ChannelRun.step, hwrite, ok_bind], hbounded⟩
  | read id =>
    obtain ⟨list, ch', q', hread, hbounded⟩ := h.read id hop
    exact ⟨_, q', by rw [ChannelRun.step, hread, ok_bind], hbounded⟩

end ChannelRun

open ChannelRun

/-- In a run whose calls all meet the condition, the next call that meets it comes back: nothing
outside the region is read or written, and the scan ends. -/
theorem channel_inside {buffer_size : ℕ} {ops : List ChannelOp} {s : ChannelRun}
    (h : RunWhere step Inside (start buffer_size) ops s) (op : ChannelOp) (hop : s.Inside op) :
    ∃ t, s.step op = .ok t := by
  have hs : ∃ q, s.channel.Bounded q := by
    refine h.invariant (fun s => ∃ q, s.channel.Bounded q) ?_
      ⟨[], (IPCChannel.create_holds buffer_size).bounded⟩
    rintro s op t ⟨q, hq⟩ hop hst
    obtain ⟨t', q', hst', hq'⟩ := step_inside hq hop
    rw [hst] at hst'
    cases hst'
    exact ⟨q', hq'⟩
  obtain ⟨q, hq⟩ := hs
  obtain ⟨t, q', hst, -⟩ := step_inside hq hop
  exact ⟨t, hst⟩

theorem channel_inside_zeroId : ∃ s : ChannelRun,
    (∃ t, s.step (.read 1) = .ok t) ∧
      s.history = [.put 1 [65], .put 0 [66], .got 2 [], .put 3 [67]] := by
  obtain ⟨s, hrun, hs⟩ := exists_run_of_any step Clear (start 32)
    [.write 1 [65], .write 0 [66], .read 2, .write 3 [67]]
    (fun s => s.Clear (.read 1) ∧ s.history = [.put 1 [65], .put 0 [66], .got 2 [], .put 3 [67]])
    (by decide +kernel)
  obtain ⟨hclear, hhistory⟩ := of_decide_eq_true hs
  have hinside := hrun.strengthen (fun _ => True) (fun _ _ _ _ _ _ => trivial)
    (fun _ _ _ hop => Clear.inside hop) trivial
  exact ⟨s, channel_inside hinside (.read 1) hclear.inside, hhistory⟩

/-- An empty message is accepted by a channel of four octets, although its header takes eight. -/
theorem channel_writes_outside : ¬ ∀ (buffer_size : ℕ) (ops : List ChannelOp) (s : ChannelRun),
    RunWhere step Unrestricted (start buffer_size) ops s →
      ∀ op : ChannelOp, ∃ t, s.step op = .ok t := by
  intro h
  obtain ⟨t, hstep⟩ := h 4 [] (start 4) (.nil _) (.write 1 [])
  have herror : (start 4).step (.write 1 []) = .error .overflow := by rfl
  rw [herror] at hstep
  cases hstep

end Sese
