import Sese.Foundation.Mailboxes
import Sese.Foundation.Outcome
import Sese.Util.Region

/-!
# The message region of an IPC channel

A channel is a region of shared memory with a queue of messages in it, one behind the
other: the id, the length and the data of each. `tail` is where the next message goes;
`read` does not use it but goes through the region up to an id of zero. Reads and
writes outside the region are faults.
-/
namespace Sese

open Foundation

/-- The octets of a `uint32_t`, least significant first. -/
def wordBytes (w : UInt32) : Bytes :=
  [.ofNat w.toNat, .ofNat (w.toNat / 256), .ofNat (w.toNat / 65536), .ofNat (w.toNat / 16777216)]

/-- The `uint32_t` with these four octets. -/
def wordOf (b : Bytes) : UInt32 := .ofNat (b.foldr (fun o n => o.toNat + 256 * n) 0)

@[simp] theorem length_wordBytes (w : UInt32) : (wordBytes w).length = 4 := rfl

@[simp] theorem wordOf_wordBytes (w : UInt32) : wordOf (wordBytes w) = w := by
  have hlt : w.toNat < 4294967296 := w.toNat_lt
  apply UInt32.toNat.inj
  simp only [wordOf, wordBytes, List.foldr, UInt32.toNat_ofNat', UInt8.toNat_ofNat']
  omega

def loadWord (buf : Bytes) (pos : ℕ) : Except Fault UInt32 := wordOf <$> load buf pos 4

structure IPCChannel where
  /-- `mem_info->total_size`. -/
  total_size : ℕ
  /-- `mem_info->tail`. -/
  tail : ℕ
  /-- The shared memory behind the `MemInfo`. -/
  buffer : Bytes
  deriving DecidableEq, Repr

/-- A message that the first loop of `read` has found. `buffer` is the place of the data,
and null if there is none. -/
structure MessageIterator where
  id : UInt32
  length : UInt32
  buffer : Option ℕ
  deriving DecidableEq, Repr

namespace IPCChannel

def headerSize : ℕ := 8

/-- `create` over memory that is zero. It clears the four octets behind the first four of
the `MemInfo`, not of the region, which are the upper half of `total_size`. -/
def create (buffer_size : ℕ) : IPCChannel where
  total_size := buffer_size % 2 ^ 32
  tail := 0
  buffer := List.replicate buffer_size 0

/-- The check of `write` for enough space. -/
def accepts (ch : IPCChannel) (length : UInt32) : Prop :=
  ch.tail + headerSize + length.toNat ≤ ch.total_size + 4

instance (ch : IPCChannel) (length : UInt32) : Decidable (ch.accepts length) :=
  inferInstanceAs (Decidable (_ ≤ _))

/-- `write(id, data, length)`. The new tail is computed with 32 bits. -/
def writeData (ch : IPCChannel) (id : UInt32) (data : Bytes) (length : UInt32) :
    Except Fault (Bool × IPCChannel) :=
  if ch.accepts length then do
    let buf ← store ch.buffer ch.tail (wordBytes id)
    let buf ← store buf (ch.tail + 4) (wordBytes length)
    let src ← load data 0 length.toNat
    let buf ← store buf (ch.tail + 8) src
    .ok (true, { ch with tail := ch.tail + (8 + length).toNat, buffer := buf })
  else .ok (false, ch)

/-- `write(id, message)`. The length of the message is cut to 32 bits. -/
def write (ch : IPCChannel) (id : UInt32) (message : Bytes) : Except Fault (Bool × IPCChannel) :=
  ch.writeData id message (.ofNat message.length)

/-- The first loop of `read`. Either every round gets on by some octets, and the region ends
before `fuel` does, or it stays where it is for good. -/
def scan (buf : Bytes) : ℕ → ℕ → Except Fault (List MessageIterator)
  | 0, _ => .error .endlessLoop
  | fuel + 1, pos => do
    let id ← loadWord buf pos
    if id = 0 then .ok []
    else
      let length ← loadWord buf (pos + 4)
      if length ≠ 0 then
        let iterators ← scan buf fuel (pos + (8 + length).toNat)
        .ok ({ id, length, buffer := some (pos + 8) } :: iterators)
      else
        let iterators ← scan buf fuel (pos + 8)
        .ok ({ id, length, buffer := none } :: iterators)

def messageData (buf : Bytes) (it : MessageIterator) : Except Fault Bytes :=
  match it.buffer with
  | some pos => load buf pos it.length.toNat
  | none => .ok []

/-- The second loop of `read`: the messages of `id` are taken out, the others are moved to
the front of the region. `size` is how much of it they take so far. -/
def compact (id : UInt32) : List MessageIterator → Bytes → ℕ → Except Fault (List Bytes × Bytes × ℕ)
  | [], buf, size => .ok ([], buf, size)
  | it :: iterators, buf, size =>
    if it.id = id then do
      let message ← messageData buf it
      let (list, buf, size) ← compact id iterators buf size
      .ok (message :: list, buf, size)
    else do
      let buf ← store buf size (wordBytes it.id)
      let buf ← store buf (size + 4) (wordBytes it.length)
      let src ← messageData buf it
      let buf ← store buf (size + 8) src
      compact id iterators buf (size + (8 + it.length).toNat)

def read (ch : IPCChannel) (id : UInt32) : Except Fault (List Bytes × IPCChannel) := do
  let iterators ← scan ch.buffer (ch.buffer.length + 1) 0
  let (list, buf, size) ← compact id iterators ch.buffer 0
  let buf ← store buf size [0, 0, 0, 0]
  .ok (list, { ch with tail := size, buffer := buf })

end IPCChannel

def frame (e : UInt32 × Bytes) : Bytes :=
  wordBytes e.1 ++ (wordBytes (.ofNat e.2.length) ++ e.2)

def frames (q : List (UInt32 × Bytes)) : Bytes := q.flatMap frame

/-- A message that the code can store: the end of its frame is computed without overflow, and
the frame is not taken for the end of the queue. -/
def Storable (e : UInt32 × Bytes) : Prop := e.1 ≠ 0 ∧ 8 + e.2.length < 2 ^ 32

@[simp] theorem frames_nil : frames [] = [] := rfl

@[simp] theorem frames_cons (e : UInt32 × Bytes) (q : List (UInt32 × Bytes)) :
    frames (e :: q) = frame e ++ frames q := rfl

@[simp] theorem frames_append (p q : List (UInt32 × Bytes)) :
    frames (p ++ q) = frames p ++ frames q := List.flatMap_append

@[simp] theorem length_frame (e : UInt32 × Bytes) : (frame e).length = 8 + e.2.length := by
  simp only [frame, List.length_append, length_wordBytes]
  omega

theorem length_le_frames (q : List (UInt32 × Bytes)) : q.length ≤ (frames q).length := by
  induction q with
  | nil => exact Nat.le_refl 0
  | cons e q ih =>
    simp only [frames_cons, List.length_cons, List.length_append, length_frame]
    omega

theorem toNat_ofNat_length {message : Bytes} (h : 8 + message.length < 2 ^ 32) :
    (UInt32.ofNat message.length).toNat = message.length := by
  rw [UInt32.toNat_ofNat']
  omega

theorem toNat_advance {message : Bytes} (h : 8 + message.length < 2 ^ 32) :
    (8 + UInt32.ofNat message.length).toNat = 8 + message.length := by
  rw [UInt32.toNat_add, toNat_ofNat_length h]
  exact Nat.mod_eq_of_lt h

theorem Storable.toNat_length {e : UInt32 × Bytes} (h : Storable e) :
    (UInt32.ofNat e.2.length).toNat = e.2.length :=
  toNat_ofNat_length h.2

theorem Storable.toNat_advance {e : UInt32 × Bytes} (h : Storable e) :
    (8 + UInt32.ofNat e.2.length).toNat = 8 + e.2.length :=
  Sese.toNat_advance h.2

theorem loadWord_append {pre post : Bytes} {pos : ℕ} (w : UInt32) (hpos : pos = pre.length) :
    loadWord (pre ++ (wordBytes w ++ post)) pos = .ok w := by
  rw [loadWord, load_append hpos (length_wordBytes w).symm]
  exact congrArg Except.ok (wordOf_wordBytes w)

/-- The region starts with the frames of `q`, and the tail is behind them. -/
structure IPCChannel.Holds (ch : IPCChannel) (q : List (UInt32 × Bytes)) : Prop where
  storable : ∀ e ∈ q, Storable e
  tail : ch.tail = (frames q).length
  region : ∃ rest, ch.buffer = frames q ++ rest

namespace IPCChannel

theorem create_holds (buffer_size : ℕ) : (create buffer_size).Holds [] where
  storable := by simp
  tail := rfl
  region := ⟨List.replicate buffer_size 0, rfl⟩

/-- The frame of an accepted message ends within the region, and its end is computed
without overflow. -/
def Fits (ch : IPCChannel) (message : Bytes) : Prop :=
  ch.accepts (.ofNat message.length) →
    8 + message.length < 2 ^ 32 ∧ ch.tail + 8 + message.length ≤ ch.buffer.length

instance (ch : IPCChannel) (message : Bytes) : Decidable (ch.Fits message) :=
  inferInstanceAs (Decidable (_ → _))

theorem store_frame {pre rest : Bytes} {e : UInt32 × Bytes} (h : (frame e).length ≤ rest.length) :
    (do
      let buf ← store (pre ++ rest) pre.length (wordBytes e.1)
      let buf ← store buf (pre.length + 4) (wordBytes (.ofNat e.2.length))
      store buf (pre.length + 8) e.2) = .ok (pre ++ (frame e ++ rest.drop (frame e).length)) := by
  rw [length_frame] at h
  rw [store_left rfl (by rw [length_wordBytes]; omega), ok_bind, ← List.append_assoc,
    store_left (by simp) (by rw [List.length_drop, length_wordBytes, length_wordBytes]; omega),
    ok_bind, ← List.append_assoc,
    store_left (by simp) (by simp only [List.length_drop, length_wordBytes]; omega)]
  simp only [frame, List.append_assoc, List.drop_drop, List.length_append, length_wordBytes,
    Nat.add_assoc]

theorem write_eq {ch : IPCChannel} {message pre rest : Bytes}
    (hacc : ch.accepts (.ofNat message.length)) (hfits : ch.Fits message)
    (hbuf : ch.buffer = pre ++ rest) (htail : ch.tail = pre.length) (id : UInt32) :
    ch.write id message = .ok (true, { ch with
      tail := ch.tail + (8 + message.length)
      buffer := pre ++ (frame (id, message) ++ rest.drop (frame (id, message)).length) }) := by
  obtain ⟨hlen, hroom⟩ := hfits hacc
  have hload : load message 0 (UInt32.ofNat message.length).toNat = .ok message := by
    rw [toNat_ofNat_length hlen, load, if_pos (Nat.zero_add _).le]
    exact congrArg Except.ok List.take_length
  have hroom' : (frame (id, message)).length ≤ rest.length := by
    rw [hbuf, List.length_append, htail] at hroom
    rw [length_frame]
    change 8 + message.length ≤ rest.length
    omega
  have hstore := @store_frame pre rest (id, message) hroom'
  simp only [bind_eq_ok] at hstore
  obtain ⟨buf₁, hbuf₁, buf₂, hbuf₂, hbuf₃⟩ := hstore
  rw [IPCChannel.write, writeData, if_pos hacc, hbuf, htail, hbuf₁, ok_bind, hbuf₂, ok_bind,
    hload, ok_bind, hbuf₃, ok_bind, toNat_advance hlen]

theorem write_refused {ch : IPCChannel} {message : Bytes}
    (h : ¬ ch.accepts (.ofNat message.length)) (id : UInt32) :
    ch.write id message = .ok (false, ch) := by
  rw [IPCChannel.write, writeData, if_neg h]

theorem Holds.append {ch ch' : IPCChannel} {q : List (UInt32 × Bytes)} {e : UInt32 × Bytes}
    {rest : Bytes} (h : ch.Holds q) (he : Storable e) (htail : ch'.tail = ch.tail + (8 + e.2.length))
    (hbuf : ch'.buffer = frames q ++ (frame e ++ rest)) : ch'.Holds (q ++ [e]) := by
  constructor
  · intro e' he'
    rcases List.mem_append.mp he' with he' | he'
    · exact h.storable e' he'
    · rwa [List.mem_singleton.mp he']
  · simp [htail, h.tail]
  · exact ⟨rest, by simp [hbuf]⟩

theorem Holds.write {ch : IPCChannel} {q : List (UInt32 × Bytes)} {id : UInt32} {message : Bytes}
    (h : ch.Holds q) (hid : id ≠ 0) (hfits : ch.Fits message) :
    ∃ accepted ch', ch.write id message = .ok (accepted, ch') ∧
      ch'.Holds (if accepted then q ++ [(id, message)] else q) := by
  by_cases hacc : ch.accepts (.ofNat message.length)
  · obtain ⟨rest, hrest⟩ := h.region
    exact ⟨true, _, write_eq hacc hfits hrest h.tail id, h.append ⟨hid, (hfits hacc).1⟩ rfl rfl⟩
  · exact ⟨false, ch, write_refused hacc id, h⟩

/-- What the first loop finds, from `pos` on. -/
def iteratorsOf : ℕ → List (UInt32 × Bytes) → List MessageIterator
  | _, [] => []
  | pos, e :: q =>
    { id := e.1
      length := .ofNat e.2.length
      buffer := if e.2 = [] then none else some (pos + 8) } ::
        iteratorsOf (pos + (8 + e.2.length)) q

theorem ofNat_length_ne_zero {e : UInt32 × Bytes} (h : Storable e) :
    UInt32.ofNat e.2.length ≠ 0 ↔ e.2 ≠ [] := by
  rw [ne_eq, ne_eq, ← UInt32.toNat_inj, h.toNat_length, ← List.length_eq_zero_iff]
  rfl

/-- The first loop goes from frame to frame and stops at a word that is zero. -/
theorem scan_frames {q : List (UInt32 × Bytes)} (pre rest : Bytes) {fuel pos : ℕ}
    (hq : ∀ e ∈ q, Storable e) (hpos : pos = pre.length) (hfuel : q.length < fuel)
    (hend : loadWord (pre ++ (frames q ++ rest)) (pos + (frames q).length) = .ok 0) :
    scan (pre ++ (frames q ++ rest)) fuel pos = .ok (iteratorsOf pos q) := by
  induction q generalizing pre fuel pos with
  | nil =>
    cases fuel with
    | zero => simp at hfuel
    | succ fuel =>
      rw [frames_nil, List.length_nil, Nat.add_zero] at hend
      rw [scan, frames_nil, hend]
      rfl
  | cons e q ih =>
    cases fuel with
    | zero => simp at hfuel
    | succ fuel =>
      have he : Storable e := hq e List.mem_cons_self
      have hid : loadWord (pre ++ (frames (e :: q) ++ rest)) pos = .ok e.1 := by
        simp only [frames_cons, frame, List.append_assoc]
        exact loadWord_append e.1 hpos
      have hlen : loadWord (pre ++ (frames (e :: q) ++ rest)) (pos + 4) =
          .ok (.ofNat e.2.length) := by
        simp only [frames_cons, frame, List.append_assoc]
        rw [← List.append_assoc]
        exact loadWord_append _ (by simp [hpos])
      have hnext : scan (pre ++ (frames (e :: q) ++ rest)) fuel (pos + (8 + e.2.length)) =
          .ok (iteratorsOf (pos + (8 + e.2.length)) q) := by
        rw [frames_cons, List.length_append, length_frame, ← Nat.add_assoc] at hend
        rw [List.append_assoc, ← List.append_assoc] at hend
        rw [frames_cons, List.append_assoc, ← List.append_assoc]
        exact ih _ (fun e he => hq e (List.mem_cons_of_mem _ he)) (by simp [hpos])
          (by simpa using hfuel) hend
      rw [scan, hid, ok_bind, if_neg he.1, hlen, ok_bind]
      by_cases hdata : e.2 = []
      · rw [if_neg (by rw [ofNat_length_ne_zero he]; exact not_not.mpr hdata)]
        rw [hdata, List.length_nil, Nat.add_zero] at hnext
        rw [hnext, ok_bind, iteratorsOf, if_pos hdata, hdata]
        rfl
      · rw [if_pos ((ofNat_length_ne_zero he).mpr hdata), he.toNat_advance, hnext, ok_bind,
          iteratorsOf, if_neg hdata]

theorem messageData_frame {e : UInt32 × Bytes} {pre : Bytes} {pos : ℕ} (he : Storable e)
    (hpos : pos = pre.length) (post : Bytes) :
    messageData (pre ++ (e.2 ++ post))
      { id := e.1, length := .ofNat e.2.length, buffer := if e.2 = [] then none else some pos } =
      .ok e.2 := by
  by_cases hdata : e.2 = []
  · simp [messageData, hdata]
  · simp only [messageData, if_neg hdata, he.toNat_length]
    exact load_append hpos rfl

/-- A frame is moved down over the gap in front of it. The id and the length are written
first; they do not reach its data. -/
theorem move_frame {e : UInt32 × Bytes} {done gap : Bytes} (post : Bytes) {pos size : ℕ}
    (he : Storable e) (hpos : pos = (done ++ gap).length) (hsize : size = done.length) :
    ∃ gap' : Bytes, gap'.length = gap.length ∧
      (do
        let buf ← store (done ++ (gap ++ (frame e ++ post))) size (wordBytes e.1)
        let buf ← store buf (size + 4) (wordBytes (.ofNat e.2.length))
        let src ← messageData buf
          { id := e.1
            length := .ofNat e.2.length
            buffer := if e.2 = [] then none else some (pos + 8) }
        store buf (size + 8) src) = .ok (done ++ (frame e ++ (gap' ++ post))) := by
  have hlen : (gap ++ frame e).length = gap.length + (8 + e.2.length) := by simp
  obtain ⟨old, hold⟩ : ∃ old, gap ++ frame e = old ++ e.2 := by
    refine ⟨gap ++ (wordBytes e.1 ++ wordBytes (.ofNat e.2.length)), ?_⟩
    simp [frame]
  have hol : old.length = gap.length + 8 := by
    rw [hold, List.length_append] at hlen
    omega
  have hrest : (old.drop 8 ++ e.2).drop e.2.length ++ post =
      (old.drop 8 ++ (e.2 ++ post)).drop e.2.length := by
    rw [← List.append_assoc (old.drop 8)]
    exact (List.drop_append_of_le_length (by simp)).symm
  refine ⟨(old.drop 8 ++ e.2).drop e.2.length, by simp [hol], ?_⟩
  have hid : store (done ++ (gap ++ (frame e ++ post))) size (wordBytes e.1) =
      .ok (done ++ (wordBytes e.1 ++ (old.drop 4 ++ (e.2 ++ post)))) := by
    rw [← List.append_assoc gap, hold, List.append_assoc old,
      store_left hsize (by simp [hol]; omega), length_wordBytes,
      List.drop_append_of_le_length (by omega)]
  have hlength : store (done ++ (wordBytes e.1 ++ (old.drop 4 ++ (e.2 ++ post)))) (size + 4)
      (wordBytes (.ofNat e.2.length)) =
      .ok ((done ++ (wordBytes e.1 ++ (wordBytes (.ofNat e.2.length) ++ old.drop 8))) ++
        (e.2 ++ post)) := by
    rw [← List.append_assoc done,
      store_left (by simp [hsize]) (by simp [hol]; omega), length_wordBytes,
      List.drop_append_of_le_length (by rw [List.length_drop]; omega), List.drop_drop]
    simp
  have hdata : store ((done ++ (wordBytes e.1 ++ (wordBytes (.ofNat e.2.length) ++ old.drop 8))) ++
      (e.2 ++ post)) (size + 8) e.2 =
      .ok (done ++ (frame e ++ ((old.drop 8 ++ e.2).drop e.2.length ++ post))) := by
    have hassoc : (done ++ (wordBytes e.1 ++ (wordBytes (.ofNat e.2.length) ++ old.drop 8))) ++
        (e.2 ++ post) = (done ++ (wordBytes e.1 ++ wordBytes (.ofNat e.2.length))) ++
          (old.drop 8 ++ (e.2 ++ post)) := by
      simp
    rw [hassoc, store_left (by simp [hsize]) (by simp; omega), hrest]
    simp [frame]
  rw [hid, ok_bind, hlength, ok_bind, messageData_frame he (by simp [hpos, hol, Nat.add_assoc]; omega),
    ok_bind, hdata]

/-- The second loop. Whatever stands between the frames that were moved already and those
that are still to come, the former grow by the frames that stay. -/
theorem compact_frames (id : UInt32) {q : List (UInt32 × Bytes)} (rest : Bytes)
    (hq : ∀ e ∈ q, Storable e) (done gap : Bytes) :
    ∃ junk, compact id (iteratorsOf (done ++ gap).length q) (done ++ (gap ++ (frames q ++ rest)))
        done.length =
        .ok (queueOf id q, done ++ (frames (q.filter fun e => e.1 ≠ id) ++ junk),
          done.length + (frames (q.filter fun e => e.1 ≠ id)).length) ∧
      rest.length ≤ junk.length := by
  induction q generalizing done gap with
  | nil => exact ⟨gap ++ rest, by simp [iteratorsOf, compact, queueOf], by simp⟩
  | cons e q ih =>
    have he : Storable e := hq e List.mem_cons_self
    have hq' : ∀ e ∈ q, Storable e := fun e he => hq e (List.mem_cons_of_mem _ he)
    rw [iteratorsOf, compact, frames_cons, List.append_assoc (frame e)]
    by_cases hid : e.1 = id
    · have hdata : messageData (done ++ (gap ++ (frame e ++ (frames q ++ rest))))
          { id := e.1
            length := .ofNat e.2.length
            buffer := if e.2 = [] then none else some ((done ++ gap).length + 8) } = .ok e.2 := by
        rw [frame, List.append_assoc, List.append_assoc, ← List.append_assoc (wordBytes e.1),
          ← List.append_assoc gap, ← List.append_assoc done]
        exact messageData_frame he (by simp [Nat.add_assoc]) _
      obtain ⟨junk, hcompact, hjunk⟩ := ih hq' done (gap ++ frame e)
      have hpos : (done ++ (gap ++ frame e)).length = (done ++ gap).length + (8 + e.2.length) := by
        simp only [List.length_append, length_frame]
        omega
      rw [hpos, List.append_assoc gap] at hcompact
      refine ⟨junk, ?_, hjunk⟩
      rw [if_pos hid, hdata, ok_bind, hcompact, ok_bind]
      simp [queueOf, hid]
    · obtain ⟨gap', hgap, hmove⟩ := move_frame (frames q ++ rest) he
        (rfl : (done ++ gap).length = _) rfl
      obtain ⟨junk, hcompact, hjunk⟩ := ih hq' (done ++ frame e) gap'
      have hpos : (done ++ frame e ++ gap').length = (done ++ gap).length + (8 + e.2.length) := by
        simp only [List.length_append, length_frame]
        omega
      have hsize : (done ++ frame e).length = done.length + (8 + e.2.length) := by simp
      refine ⟨junk, ?_, hjunk⟩
      simp only [bind_eq_ok] at hmove
      obtain ⟨buf₁, hbuf₁, buf₂, hbuf₂, src, hsrc, hbuf₃⟩ := hmove
      rw [hpos, hsize, List.append_assoc] at hcompact
      rw [if_neg hid, hbuf₁, ok_bind, hbuf₂, ok_bind, hsrc, ok_bind, hbuf₃, ok_bind,
        he.toNat_advance, hcompact]
      simp [queueOf, hid, Nat.add_assoc]

theorem loadWord_eq_ok {buf : Bytes} {pos : ℕ} {w : UInt32} (h : loadWord buf pos = .ok w) :
    pos + 4 ≤ buf.length := by
  by_contra hlt
  rw [loadWord, load, if_neg hlt] at h
  cases h

/-- `read` on a region that starts with the frames of `q` and a word that is zero, wherever
the tail is. -/
theorem read_frames {ch : IPCChannel} {q : List (UInt32 × Bytes)} {rest : Bytes}
    (hq : ∀ e ∈ q, Storable e) (hrest : ch.buffer = frames q ++ rest) (id : UInt32)
    (hend : loadWord ch.buffer (frames q).length = .ok 0) :
    ∃ ch', ch.read id = .ok (queueOf id q, ch') ∧ ch'.Holds (q.filter fun e => e.1 ≠ id) := by
  have hfuel : q.length < ch.buffer.length + 1 := by
    have := length_le_frames q
    rw [hrest, List.length_append]
    omega
  have hroom : 4 ≤ rest.length := by
    have := loadWord_eq_ok hend
    rw [hrest, List.length_append] at this
    omega
  have hscan : scan ch.buffer (ch.buffer.length + 1) 0 = .ok (iteratorsOf 0 q) := by
    rw [hrest] at hend
    have := scan_frames [] rest hq rfl hfuel (by simpa using hend)
    rwa [List.nil_append, ← hrest] at this
  obtain ⟨junk, hcompact, hjunk⟩ := compact_frames id rest hq [] []
  simp only [List.nil_append, List.length_nil, Nat.zero_add, ← hrest] at hcompact
  refine ⟨{ ch with
    tail := (frames (q.filter fun e => e.1 ≠ id)).length
    buffer := frames (q.filter fun e => e.1 ≠ id) ++ ([0, 0, 0, 0] ++ junk.drop 4) }, ?_, ?_⟩
  · rw [IPCChannel.read, hscan, ok_bind, hcompact, ok_bind]
    dsimp only
    rw [store_left rfl (by simpa using Nat.le_trans hroom hjunk), ok_bind]
    rfl
  · constructor
    · intro e he
      exact hq e (List.mem_of_mem_filter he)
    · rfl
    · exact ⟨_, rfl⟩

/-- `read` returns the queue of the id and leaves the others, if the word at the tail is
zero. -/
theorem Holds.read {ch : IPCChannel} {q : List (UInt32 × Bytes)} (h : ch.Holds q) (id : UInt32)
    (hclear : loadWord ch.buffer ch.tail = .ok 0) :
    ∃ ch', ch.read id = .ok (queueOf id q, ch') ∧ ch'.Holds (q.filter fun e => e.1 ≠ id) := by
  obtain ⟨rest, hrest⟩ := h.region
  rw [h.tail] at hclear
  exact read_frames h.storable hrest id hclear

end IPCChannel

end Sese
