import Sese.Foundation.Outcome
import Sese.Foundation.Runs
import Sese.Util.Bytes

/-!
# Streams over a resource

`ResourceStream`, which is asked to be a file that cannot be written: reads give what was asked
for as far as it is there, and the position does not leave the file.
-/
namespace Sese.Res

open Foundation

/-- What is bundled with the program. No object has `2 ^ 63` octets. -/
structure Resource where
  octets : Bytes
  length_lt : octets.length < 2 ^ 63

namespace Resource

def size (r : Resource) : ℕ := r.octets.length

end Resource

inductive Seek
  | CUR
  | BEGIN
  | END
  deriving DecidableEq

def SEEK_SET : Int32 := 0
def SEEK_CUR : Int32 := 1
def SEEK_END : Int32 := 2

/-- `static_cast<int32_t>`. -/
def Seek.whence : Seek → Int32
  | CUR => SEEK_CUR
  | BEGIN => SEEK_SET
  | END => SEEK_END

/-- `static_cast<int64_t>` of a `size_t`. -/
def toInt64 (n : ℕ) : ℤ := Int.bmod n (2 ^ 64)

structure ResourceStream where
  data : Resource
  pos : ℕ := 0

/-- What the caller of a method gets: the octets in its buffer, and the result. -/
structure Got where
  written : Bytes := []
  returned : ℤ
  deriving DecidableEq

inductive StreamCall
  | read (length : ℕ)
  | peek (length : ℕ)
  | trunc (length : ℕ)
  | getSeek
  | setSeek (offset : Int64) (whence : Int32)
  | seek (offset : Int64) (seek : Seek)
  deriving DecidableEq

namespace ResourceStream

/-- `size - pos`, which is unsigned. -/
def readable (s : ResourceStream) : ℕ := (s.data.size + 2 ^ 64 - s.pos) % 2 ^ 64

/-- `memcpy` from `data + pos`. -/
def copy (s : ResourceStream) (n : ℕ) : Except Fault Bytes :=
  if s.pos + n ≤ s.data.size then .ok ((s.data.octets.drop s.pos).take n) else .error .overread

/-- `pos += n`. -/
def skip (s : ResourceStream) (n : ℕ) : ResourceStream := { s with pos := (s.pos + n) % 2 ^ 64 }

def read (s : ResourceStream) (_length : ℕ) : Except Fault (Got × ResourceStream) :=
  if s.readable > 0 then do
    let written ← s.copy s.readable
    return (⟨written, toInt64 s.readable⟩, s.skip s.readable)
  else return (⟨[], toInt64 s.readable⟩, s)

def peek (s : ResourceStream) (_length : ℕ) : Except Fault (Got × ResourceStream) :=
  if s.readable > 0 then do
    let written ← s.copy s.readable
    return (⟨written, toInt64 s.readable⟩, s)
  else return (⟨[], toInt64 s.readable⟩, s)

def trunc (s : ResourceStream) (_length : ℕ) : Got × ResourceStream :=
  if s.readable > 0 then (⟨[], toInt64 s.readable⟩, s.skip s.readable)
  else (⟨[], toInt64 s.readable⟩, s)

def getSeek (s : ResourceStream) : ℤ := toInt64 s.pos

/-- An addition of `int64_t`. -/
def addInt64 (a b : ℤ) : Except Fault ℤ :=
  if -2 ^ 63 ≤ a + b ∧ a + b < 2 ^ 63 then .ok (a + b) else .error .intOverflow

def moveTo (s : ResourceStream) (newPos : ℤ) : Got × ResourceStream :=
  if newPos < 0 ∨ newPos - 1 > toInt64 s.data.size then (⟨[], -1⟩, s)
  else (⟨[], 0⟩, { s with pos := toUInt64 newPos })

def setSeek (s : ResourceStream) (offset : Int64) (whence : Int32) :
    Except Fault (Got × ResourceStream) :=
  if whence = SEEK_CUR then do
    let newPos ← addInt64 (toInt64 s.pos) offset.toInt
    return s.moveTo newPos
  else if whence = SEEK_SET then return s.moveTo offset.toInt
  else if whence = SEEK_END then do
    let newPos ← addInt64 (toInt64 s.data.size) offset.toInt
    return s.moveTo newPos
  else return (⟨[], -1⟩, s)

def call (s : ResourceStream) : StreamCall → Except Fault (Got × ResourceStream)
  | .read length => s.read length
  | .peek length => s.peek length
  | .trunc length => return s.trunc length
  | .getSeek => return (⟨[], s.getSeek⟩, s)
  | .setSeek offset whence => s.setSeek offset whence
  | .seek offset seek => s.setSeek offset seek.whence

/-- Where a seek is to go, from the position `pos`. -/
def target (r : Resource) (pos : ℕ) (offset : Int64) (whence : Int32) : Option ℤ :=
  if whence = SEEK_CUR then some (pos + offset.toInt)
  else if whence = SEEK_SET then some offset.toInt
  else if whence = SEEK_END then some (r.size + offset.toInt)
  else none

def placed (r : Resource) (pos : ℕ) (offset : Int64) (whence : Int32) : Option ℕ :=
  match target r pos offset whence with
  | some t => if 0 ≤ t ∧ t ≤ r.size then some t.toNat else none
  | none => none

def seekAnswer (r : Resource) (pos : ℕ) (offset : Int64) (whence : Int32) : Got :=
  ⟨[], if (placed r pos offset whence).isSome then 0 else -1⟩

/-- What a file gives at the position `pos`. -/
def answer (r : Resource) (pos : ℕ) : StreamCall → Got
  | .read length => ⟨(r.octets.drop pos).take length, (min length (r.size - pos) : ℕ)⟩
  | .peek length => ⟨(r.octets.drop pos).take length, (min length (r.size - pos) : ℕ)⟩
  | .trunc length => ⟨[], (min length (r.size - pos) : ℕ)⟩
  | .getSeek => ⟨[], pos⟩
  | .setSeek offset whence => seekAnswer r pos offset whence
  | .seek offset seek => seekAnswer r pos offset seek.whence

/-- The position behind a call. -/
def after (r : Resource) (pos : ℕ) : StreamCall → ℕ
  | .read length => pos + min length (r.size - pos)
  | .peek _ => pos
  | .trunc length => pos + min length (r.size - pos)
  | .getSeek => pos
  | .setSeek offset whence => (placed r pos offset whence).getD pos
  | .seek offset seek => (placed r pos offset seek.whence).getD pos

/-- A seek has a place that is an `int64_t` and is not the place behind the end. -/
def Placeable (s : ResourceStream) (offset : Int64) (whence : Int32) : Prop :=
  ∀ t ∈ target s.data s.pos offset whence, t < 2 ^ 63 ∧ t ≠ s.data.size + 1

/-- What is asked for is at least all there is. -/
def Harmless (s : ResourceStream) : StreamCall → Prop
  | .read length => s.data.size - s.pos ≤ length
  | .peek length => s.data.size - s.pos ≤ length
  | .trunc length => s.data.size - s.pos ≤ length
  | .getSeek => True
  | .setSeek offset whence => s.Placeable offset whence
  | .seek offset seek => s.Placeable offset seek.whence

variable {s : ResourceStream} {r : Resource} {pos : ℕ}

structure InFile (r : Resource) (s : ResourceStream) (pos : ℕ) : Prop where
  data_eq : s.data = r
  pos_eq : s.pos = pos
  pos_le : pos ≤ r.size

theorem toInt64_of_lt {n : ℕ} (h : n < 2 ^ 63) : toInt64 n = n := by
  apply Int.bmod_eq_of_le
  · push_cast
    omega
  · push_cast
    omega

theorem size_lt (r : Resource) : r.size < 2 ^ 63 := r.length_lt

theorem readable_eq (h : s.pos ≤ s.data.size) : s.readable = s.data.size - s.pos := by
  have hlt := size_lt s.data
  unfold readable
  omega

theorem copy_readable (h : s.pos ≤ s.data.size) :
    s.copy (s.data.size - s.pos) = .ok (s.data.octets.drop s.pos) := by
  rw [copy, if_pos (by omega), List.take_of_length_le]
  rw [List.length_drop, Resource.size]

theorem skip_readable (h : s.pos ≤ s.data.size) :
    s.skip (s.data.size - s.pos) = { s with pos := s.data.size } := by
  have hlt := size_lt s.data
  have hpos : (s.pos + (s.data.size - s.pos)) % 2 ^ 64 = s.data.size := by omega
  rw [skip, hpos]

theorem drop_size (r : Resource) : r.octets.drop r.size = [] := List.drop_length

theorem read_eq (h : s.pos ≤ s.data.size) (n : ℕ) : s.read n =
    .ok (⟨s.data.octets.drop s.pos, (s.data.size - s.pos : ℕ)⟩, { s with pos := s.data.size }) := by
  have hlt := size_lt s.data
  rw [read, readable_eq h, copy_readable h, skip_readable h, toInt64_of_lt (by omega)]
  split_ifs with hpos
  · rfl
  · have heq : s.pos = s.data.size := by omega
    obtain ⟨data, pos⟩ := s
    simp only at heq
    subst heq
    simp [drop_size, pure, Except.pure]

theorem peek_eq (h : s.pos ≤ s.data.size) (n : ℕ) : s.peek n =
    .ok (⟨s.data.octets.drop s.pos, (s.data.size - s.pos : ℕ)⟩, s) := by
  have hlt := size_lt s.data
  rw [peek, readable_eq h, copy_readable h, toInt64_of_lt (by omega)]
  split_ifs with hpos
  · rfl
  · have heq : s.pos = s.data.size := by omega
    simp [heq, drop_size, pure, Except.pure]

theorem trunc_eq (h : s.pos ≤ s.data.size) (n : ℕ) : s.trunc n =
    (⟨[], (s.data.size - s.pos : ℕ)⟩, { s with pos := s.data.size }) := by
  have hlt := size_lt s.data
  rw [trunc, readable_eq h, skip_readable h, toInt64_of_lt (by omega)]
  split_ifs with hpos
  · rfl
  · have heq : s.pos = s.data.size := by omega
    obtain ⟨data, pos⟩ := s
    simp only at heq
    subst heq
    rfl

theorem addInt64_eq (n : ℕ) (offset : Int64) : addInt64 n offset.toInt =
    if n + offset.toInt < 2 ^ 63 then .ok (n + offset.toInt) else .error .intOverflow := by
  have hle : -2 ^ 63 ≤ n + offset.toInt := by
    have := offset.le_toInt
    omega
  simp only [addInt64, hle, true_and]

theorem setSeek_eq (h : s.pos ≤ s.data.size) (offset : Int64) (whence : Int32) :
    s.setSeek offset whence =
      match target s.data s.pos offset whence with
      | none => .ok (⟨[], -1⟩, s)
      | some t => if t < 2 ^ 63 then .ok (s.moveTo t) else .error .intOverflow := by
  have hlt := size_lt s.data
  unfold setSeek target
  by_cases hcur : whence = SEEK_CUR
  · simp only [if_pos hcur, toInt64_of_lt (show s.pos < 2 ^ 63 by omega), addInt64_eq]
    split_ifs <;> rfl
  · by_cases hset : whence = SEEK_SET
    · have hoffset : offset.toInt < 2 ^ 63 := offset.toInt_lt
      simp only [if_neg hcur, if_pos hset, if_pos hoffset]
      rfl
    · by_cases hend : whence = SEEK_END
      · simp only [if_neg hcur, if_neg hset, if_pos hend, toInt64_of_lt hlt, addInt64_eq]
        split_ifs <;> rfl
      · simp only [if_neg hcur, if_neg hset, if_neg hend]
        rfl

theorem moveTo_of_le {t : ℤ} (h₀ : 0 ≤ t) (h : t ≤ s.data.size + 1) :
    s.moveTo t = (⟨[], 0⟩, { s with pos := t.toNat }) := by
  have hlt := size_lt s.data
  have hcast : toUInt64 t = t.toNat := by
    unfold toUInt64
    omega
  rw [moveTo, toInt64_of_lt hlt, if_neg (by omega), hcast]

theorem moveTo_of_not {t : ℤ} (h : ¬ (0 ≤ t ∧ t ≤ s.data.size + 1)) :
    s.moveTo t = (⟨[], -1⟩, s) := by
  rw [moveTo, toInt64_of_lt (size_lt s.data), if_pos (by omega)]

theorem placed_none {offset : Int64} {whence : Int32} (h : target r pos offset whence = none) :
    placed r pos offset whence = none := by
  simp only [placed, h]

theorem placed_some {t : ℤ} {offset : Int64} {whence : Int32}
    (h : target r pos offset whence = some t) :
    placed r pos offset whence = if 0 ≤ t ∧ t ≤ r.size then some t.toNat else none := by
  simp only [placed, h]

theorem InFile.setSeek (h : InFile r s pos) {offset : Int64} {whence : Int32}
    (hplace : s.Placeable offset whence) :
    ∃ t, s.setSeek offset whence = .ok (seekAnswer r pos offset whence, t) ∧
      InFile r t ((placed r pos offset whence).getD pos) := by
  obtain ⟨rfl, rfl, hle⟩ := h
  rw [setSeek_eq hle, seekAnswer]
  cases htarget : target s.data s.pos offset whence with
  | none =>
    rw [placed_none htarget]
    exact ⟨s, rfl, rfl, rfl, hle⟩
  | some t =>
    obtain ⟨hlt, hne⟩ := hplace t htarget
    rw [placed_some htarget]
    simp only [if_pos hlt]
    by_cases hin : 0 ≤ t ∧ t ≤ s.data.size
    · rw [moveTo_of_le hin.1 (by omega), if_pos hin]
      refine ⟨_, rfl, rfl, rfl, ?_⟩
      have hbound := hin.2
      simp only [Option.getD_some]
      omega
    · rw [moveTo_of_not (by omega), if_neg hin]
      exact ⟨s, rfl, rfl, rfl, hle⟩

theorem InFile.placeable (h : InFile r s pos) {offset : Int64} {whence : Int32} {t : ResourceStream}
    (hseek : s.setSeek offset whence = .ok (seekAnswer r pos offset whence, t)) :
    s.Placeable offset whence := by
  obtain ⟨rfl, rfl, hle⟩ := h
  intro place htarget
  rw [setSeek_eq hle, htarget, seekAnswer, placed_some htarget] at hseek
  by_cases hlt : place < 2 ^ 63
  · refine ⟨hlt, ?_⟩
    rintro rfl
    have hin : ¬ (0 ≤ (s.data.size + 1 : ℤ) ∧ (s.data.size + 1 : ℤ) ≤ s.data.size) := by omega
    simp only [if_pos hlt, if_neg hin] at hseek
    rw [moveTo_of_le (by omega) le_rfl] at hseek
    cases hseek
  · simp only [if_neg hlt] at hseek
    cases hseek

/-- A call that asks for all there is, or seeks in the file, answers like the file. -/
theorem InFile.call (h : InFile r s pos) (c : StreamCall) (hc : s.Harmless c) :
    ∃ t, s.call c = .ok (answer r pos c, t) ∧ InFile r t (after r pos c) := by
  obtain ⟨rfl, rfl, hle⟩ := h
  cases c with
  | read length =>
    have hall : s.data.size - s.pos ≤ length := hc
    have htake : (s.data.octets.drop s.pos).length ≤ length := by rwa [List.length_drop]
    refine ⟨{ s with pos := s.data.size }, ?_, rfl, ?_, ?_⟩
    · simp only [ResourceStream.call, read_eq hle, answer, List.take_of_length_le htake,
        min_eq_right hall]
    · simp only [after, min_eq_right hall]
      omega
    · simp only [after, min_eq_right hall]
      omega
  | peek length =>
    have hall : s.data.size - s.pos ≤ length := hc
    have htake : (s.data.octets.drop s.pos).length ≤ length := by rwa [List.length_drop]
    refine ⟨s, ?_, rfl, rfl, hle⟩
    simp only [ResourceStream.call, peek_eq hle, answer, List.take_of_length_le htake,
      min_eq_right hall]
  | trunc length =>
    have hall : s.data.size - s.pos ≤ length := hc
    refine ⟨{ s with pos := s.data.size }, ?_, rfl, ?_, ?_⟩
    · simp only [ResourceStream.call, trunc_eq hle, answer, min_eq_right hall]
      rfl
    · simp only [after, min_eq_right hall]
      omega
    · simp only [after, min_eq_right hall]
      omega
  | getSeek =>
    have hlt := size_lt s.data
    refine ⟨s, ?_, rfl, rfl, hle⟩
    simp only [ResourceStream.call, getSeek, answer, toInt64_of_lt (show s.pos < 2 ^ 63 by omega)]
    rfl
  | setSeek offset whence => exact InFile.setSeek ⟨rfl, rfl, hle⟩ hc
  | seek offset seek => exact InFile.setSeek ⟨rfl, rfl, hle⟩ hc

theorem InFile.harmless (h : InFile r s pos) {c : StreamCall} {t : ResourceStream}
    (hcall : s.call c = .ok (answer r pos c, t)) : s.Harmless c := by
  obtain ⟨rfl, rfl, hle⟩ := h
  have hmin (a b : ℕ) (heq : (b : ℤ) = (min a b : ℕ)) : b ≤ a := by omega
  cases c with
  | read length =>
    simp only [ResourceStream.call, read_eq hle, answer, Except.ok.injEq, Prod.mk.injEq,
      Got.mk.injEq] at hcall
    exact hmin _ _ hcall.1.2
  | peek length =>
    simp only [ResourceStream.call, peek_eq hle, answer, Except.ok.injEq, Prod.mk.injEq,
      Got.mk.injEq] at hcall
    exact hmin _ _ hcall.1.2
  | trunc length =>
    simp only [ResourceStream.call, trunc_eq hle, answer, pure, Except.pure, Except.ok.injEq,
      Prod.mk.injEq, Got.mk.injEq] at hcall
    exact hmin _ _ hcall.1.2
  | getSeek => trivial
  | setSeek offset whence => exact InFile.placeable ⟨rfl, rfl, hle⟩ hcall
  | seek offset seek => exact InFile.placeable ⟨rfl, rfl, hle⟩ hcall

/-- The runs in which reads ask for all there is, and seeks do not aim behind the end by one, are
those in which the stream answers like a file and its position stays in it. -/
theorem harmless_iff_file (r : Resource) (calls : List StreamCall) :
    (∃ s, RunWhere (serve call) (fun s c => Harmless s.1 c) (⟨r, 0⟩, []) calls s) ↔
      ∀ pre, pre <+: calls → ∃ s, RunWhere (serve call) Unrestricted (⟨r, 0⟩, []) pre s ∧
        s.2 = answers (answer r) (after r) 0 pre ∧ InFile r s.1 (pre.foldl (after r) 0) := by
  refine @ serve_iff_forall_prefix _ _ _ _ _ call Harmless Unrestricted (answer r) (after r) ⟨r, 0⟩ 0
    calls (InFile r) (InFile r) ⟨rfl, rfl, Nat.zero_le _⟩ ?_ ?_ ?_
  · exact fun _ _ h => h
  · exact fun _ _ c h hc => ⟨trivial, h.call c hc⟩
  · exact fun _ _ _ _ h _ hcall _ => h.harmless hcall

/-- A read of one octet gives three, and a file gives one. -/
theorem read_overruns :
    ∃ s, RunWhere (serve call) Unrestricted (⟨⟨[1, 2, 3], by decide⟩, 0⟩, []) [.read 1] s ∧
      s.2 = [⟨[1, 2, 3], 3⟩] ∧
      s.2 ≠ answers (answer ⟨[1, 2, 3], by decide⟩) (after ⟨[1, 2, 3], by decide⟩) 0 [.read 1] := by
  obtain ⟨s, hrun, hs⟩ := exists_run_of_any (serve call) Unrestricted
    (⟨⟨[1, 2, 3], by decide⟩, 0⟩, []) [.read 1] (fun s => s.2 == [⟨[1, 2, 3], 3⟩]) (by decide)
  refine ⟨s, hrun, eq_of_beq hs, ?_⟩
  rw [eq_of_beq hs]
  decide

end ResourceStream
end Sese.Res
