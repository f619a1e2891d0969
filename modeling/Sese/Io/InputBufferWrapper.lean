import Sese.Io.InputStream

/-!
# Octets in memory as a stream

`io::InputBufferWrapper`.
-/
namespace Sese.Io

structure InputBufferWrapper where
  buffer : Bytes
  pos : ℕ := 0
  deriving DecidableEq

namespace InputBufferWrapper

def read (s : InputBufferWrapper) (length : ℕ) : Bytes × InputBufferWrapper :=
  if s.buffer.length - s.pos ≥ length then
    ((s.buffer.drop s.pos).take length, { s with pos := s.pos + length })
  else (s.buffer.drop s.pos, { s with pos := s.buffer.length })

def peek (s : InputBufferWrapper) (length : ℕ) : Bytes :=
  if s.buffer.length - s.pos ≥ length then (s.buffer.drop s.pos).take length
  else s.buffer.drop s.pos

def trunc (s : InputBufferWrapper) (length : ℕ) : ℕ × InputBufferWrapper :=
  if s.buffer.length - s.pos ≥ length then (length, { s with pos := s.pos + length })
  else (s.buffer.length - s.pos, { s with pos := s.buffer.length })

instance : InputStream InputBufferWrapper where
  read s length := .ok (s.read length)
  left s := s.buffer.length - s.pos

def Holds (s : InputBufferWrapper) (u : Bytes) : Prop := s.buffer.drop s.pos = u

def Spent (s : InputBufferWrapper) : Prop := s.buffer.length ≤ s.pos

theorem reads : Reads Holds Spent where
  read_le := by
    rintro s u n rfl hn
    rw [List.length_drop] at hn
    refine ⟨{ s with pos := s.pos + n }, ?_, ?_⟩
    · change Except.ok (s.read n) = _
      rw [read, if_pos hn]
    · change s.buffer.drop (s.pos + n) = _
      rw [List.drop_drop]
  read_end := by
    intro s n hs hn
    have hlen : s.buffer.length ≤ s.pos := List.drop_eq_nil_iff.mp hs
    refine ⟨{ s with pos := s.buffer.length }, ?_, le_refl s.buffer.length⟩
    change Except.ok (s.read n) = _
    rw [read, if_neg (by omega), show s.buffer.drop s.pos = [] from hs]
  left_le := by
    rintro s u rfl
    exact List.length_drop.le

theorem staysSpent : StaysSpent Spent := by
  intro s n hs
  have hdrop : s.buffer.drop s.pos = [] := List.drop_eq_nil_iff.mpr hs
  change s.buffer.length ≤ s.pos at hs
  cases n with
  | zero =>
    refine ⟨s, ?_, hs⟩
    change Except.ok (s.read 0) = _
    rw [read, if_pos (Nat.zero_le _), List.take_zero]
    rfl
  | succ n =>
    refine ⟨{ s with pos := s.buffer.length }, ?_, le_refl s.buffer.length⟩
    change Except.ok (s.read (n + 1)) = _
    rw [read, if_neg (by omega), hdrop]

def rest (s : InputBufferWrapper) : Bytes := s.buffer.drop s.pos

def spend (s : InputBufferWrapper) : InputBufferWrapper := { s with pos := s.buffer.length }

variable {s : InputBufferWrapper} {n : ℕ}

theorem length_rest (s : InputBufferWrapper) : s.rest.length = s.buffer.length - s.pos :=
  List.length_drop

@[simp] theorem rest_spend (s : InputBufferWrapper) : s.spend.rest = [] := List.drop_length

@[simp] theorem spend_spend (s : InputBufferWrapper) : s.spend.spend = s.spend := rfl

theorem rest_add (s : InputBufferWrapper) (n : ℕ) :
    rest { s with pos := s.pos + n } = s.rest.drop n := by
  simp [rest]

theorem read_of_le (h : n ≤ s.rest.length) :
    s.read n = (s.rest.take n, { s with pos := s.pos + n }) := by
  rw [length_rest] at h
  rw [read, if_pos h, rest]

theorem read_of_lt (h : s.rest.length < n) : s.read n = (s.rest, s.spend) := by
  rw [length_rest] at h
  rw [read, if_neg (by omega), rest, spend]

theorem length_read (s : InputBufferWrapper) (n : ℕ) :
    (s.read n).1.length = n ↔ n ≤ s.rest.length := by
  by_cases h : n ≤ s.rest.length
  · simp [read_of_le h, h]
  · rw [read_of_lt (by omega)]
    dsimp only
    omega

theorem peek_one (s : InputBufferWrapper) : s.peek 1 = s.rest.take 1 := by
  rw [peek]
  split_ifs with h
  · rfl
  · rw [rest, List.take_of_length_le]
    rw [List.length_drop]
    omega

theorem trunc_one {b : UInt8} {u : Bytes} (h : s.rest = b :: u) : (s.trunc 1).2.rest = u := by
  have hlen := s.length_rest
  rw [h, List.length_cons] at hlen
  rw [trunc, if_pos (by omega), rest_add, h]
  rfl

theorem fills : Fills Holds where
  read := by
    rintro s u n rfl
    change ∃ s', Except.ok (s.read n) = _ ∧ _
    by_cases h : n ≤ s.rest.length
    · exact ⟨_, by rw [read_of_le h, rest], rest_add s n⟩
    · have hlt : s.rest.length < n := by omega
      refine ⟨s.spend, ?_, ?_⟩
      · rw [read_of_lt hlt, rest, List.take_of_length_le]
        exact hlt.le
      · change s.spend.rest = _
        rw [rest_spend, List.drop_of_length_le]
        exact hlt.le
  left_le := reads.left_le

end InputBufferWrapper
end Sese.Io
