import Mathlib.Algebra.BigOperators.Group.List.Basic
import Mathlib.Data.List.TakeDrop
import Mathlib.Tactic

/-!
# Queues

A queue that keeps what was read: elements are added at the end, a cursor goes over them, and
what is behind the cursor can be read again until everything is dropped.

Queues of bounded weight: a queue is a list from its oldest to its newest element, and every
element has a weight. `evictTo w room q` removes the oldest elements until the rest weighs at
most `room`. What it leaves is `q.drop k` for the least `k` with that property.

Queues of bounded length, and the arcs of a ring of cells that hold them.
-/
namespace Foundation

universe u
variable {α : Type u}

/-- `cursor_le` excludes a cursor behind the last element. -/
@[ext] structure CursorQueue (α : Type u) where
  stored : List α
  cursor : ℕ
  cursor_le : cursor ≤ stored.length

namespace CursorQueue

def empty : CursorQueue α := ⟨[], 0, le_rfl⟩

def unread (q : CursorQueue α) : List α := q.stored.drop q.cursor

def append (q : CursorQueue α) (xs : List α) : CursorQueue α where
  stored := q.stored ++ xs
  cursor := q.cursor
  cursor_le := by
    rw [List.length_append]
    exact Nat.le_add_right_of_le q.cursor_le

/-- The cursor passes `n` elements, or all there are. -/
def advance (q : CursorQueue α) (n : ℕ) : CursorQueue α where
  stored := q.stored
  cursor := q.cursor + min n q.unread.length
  cursor_le := by
    have hcursor := q.cursor_le
    rw [unread, List.length_drop]
    omega

def rewind (q : CursorQueue α) : CursorQueue α := ⟨q.stored, 0, Nat.zero_le _⟩

theorem length_unread (q : CursorQueue α) : q.unread.length = q.stored.length - q.cursor :=
  List.length_drop

theorem unread_advance (q : CursorQueue α) (n : ℕ) : (q.advance n).unread = q.unread.drop n := by
  change q.stored.drop (q.cursor + min n q.unread.length) = (q.stored.drop q.cursor).drop n
  rw [List.drop_drop]
  by_cases h : n ≤ q.unread.length
  · rw [min_eq_left h]
  · rw [length_unread] at h ⊢
    rw [List.drop_eq_nil_of_le (by omega), List.drop_eq_nil_of_le (by omega)]

end CursorQueue

section Eviction

variable (w : α → ℕ)

def total (q : List α) : ℕ := (q.map w).sum

/-- Remove the oldest elements until the rest weighs at most `room`. -/
def evictTo (room : ℕ) : List α → List α
  | [] => []
  | a :: q => if total w (a :: q) ≤ room then a :: q else evictTo room q

@[simp] theorem total_nil : total w [] = 0 := rfl

@[simp] theorem total_cons (a : α) (q : List α) : total w (a :: q) = w a + total w q := by
  simp [total]

@[simp] theorem total_append (p q : List α) : total w (p ++ q) = total w p + total w q := by
  simp [total]

theorem total_take_add_drop (k : ℕ) (q : List α) :
    total w (q.take k) + total w (q.drop k) = total w q := by
  rw [← total_append, List.take_append_drop]

/-- `k` elements have to go: the rest fits, and with one element more it does not. -/
structure Evicts (room : ℕ) (q : List α) (k : ℕ) : Prop where
  le : k ≤ q.length
  fits : total w (q.drop k) ≤ room
  before : ∀ j < k, room < total w (q.drop j)

variable {w}

theorem evictTo_eq_drop {room k : ℕ} {q : List α} (h : Evicts w room q k) :
    evictTo w room q = q.drop k := by
  induction q generalizing k with
  | nil => simp [evictTo]
  | cons a q ih =>
    cases k with
    | zero =>
      have hfits : total w (a :: q) ≤ room := h.fits
      rw [evictTo, if_pos hfits, List.drop_zero]
    | succ k =>
      have hbig : room < total w (a :: q) := h.before 0 (Nat.succ_pos k)
      rw [evictTo, if_neg (not_le.mpr hbig), List.drop_succ_cons]
      apply ih
      constructor
      · exact Nat.le_of_succ_le_succ h.le
      · exact h.fits
      · intro j hj
        exact h.before (j + 1) (Nat.succ_lt_succ hj)

theorem exists_evicts (room : ℕ) (q : List α) : ∃ k, Evicts w room q k := by
  induction q with
  | nil => exact ⟨0, le_rfl, by simp, by simp⟩
  | cons a q ih =>
    by_cases hfits : total w (a :: q) ≤ room
    · exact ⟨0, Nat.zero_le _, hfits, by simp⟩
    · obtain ⟨k, hk⟩ := ih
      refine ⟨k + 1, Nat.succ_le_succ hk.le, hk.fits, ?_⟩
      intro j hj
      cases j with
      | zero => exact not_le.mp hfits
      | succ j => exact hk.before j (Nat.lt_of_succ_lt_succ hj)

end Eviction

section Bounded

variable {N : ℕ}

/-- A queue that holds at most `N` elements. -/
@[ext] structure BoundedQueue (α : Type u) (N : ℕ) where
  elements : List α
  length_le : elements.length ≤ N

namespace BoundedQueue

def empty : BoundedQueue α N := ⟨[], Nat.zero_le N⟩

/-- The queue without its oldest element. -/
def tail (q : BoundedQueue α N) : BoundedQueue α N where
  elements := q.elements.tail
  length_le := by
    have hle := q.length_le
    rw [List.length_tail]
    omega

/-- The queue with a new element, if there is room for it. -/
def add (q : BoundedQueue α N) (a : α) : BoundedQueue α N :=
  if h : q.elements.length < N then
    ⟨q.elements ++ [a], by rw [List.length_append, List.length_singleton]; exact h⟩
  else q

end BoundedQueue

/-- The cell that is `k` cells behind `i` on the ring. -/
def around (i : Fin N) (k : ℕ) : Fin N := ⟨(i + k) % N, Nat.mod_lt _ i.pos⟩

/-- The `n` cells of a ring from `i` on. -/
def arc (cells : Vector α N) (i : Fin N) (n : ℕ) : List α :=
  (List.range n).map fun k => cells[around i k]

@[simp] theorem around_zero (i : Fin N) : around i 0 = i := by
  simp [around, Nat.mod_eq_of_lt i.isLt]

theorem around_around (i : Fin N) (j k : ℕ) : around (around i j) k = around i (j + k) := by
  simp [around, Nat.add_assoc]

theorem around_ne (i : Fin N) {j k : ℕ} (hjk : j < k) (hk : k < N) : around i j ≠ around i k := by
  intro h
  have hmod : (i + j) % N = (i + k) % N := Fin.mk.inj h
  have hjk' : j % N = k % N := Nat.ModEq.add_left_cancel' _ hmod
  rw [Nat.mod_eq_of_lt (hjk.trans hk), Nat.mod_eq_of_lt hk] at hjk'
  omega

@[simp] theorem length_arc (cells : Vector α N) (i : Fin N) (n : ℕ) : (arc cells i n).length = n := by
  simp [arc]

theorem arc_succ (cells : Vector α N) (i : Fin N) (n : ℕ) :
    arc cells i (n + 1) = cells[i] :: arc cells (around i 1) n := by
  simp [arc, List.range_succ_eq_map, around_around, Nat.add_comm]

theorem arc_set (cells : Vector α N) (i : Fin N) {n : ℕ} (hn : n < N) (a : α) :
    arc (cells.set (around i n) a) i (n + 1) = arc cells i n ++ [a] := by
  unfold arc
  rw [List.range_succ, List.map_append]
  congr 1
  · apply List.map_congr_left
    intro k hk
    have hne := around_ne i (List.mem_range.mp hk) hn
    exact Vector.getElem_set_ne _ _ fun h => hne (Fin.ext h.symm)
  · simp

end Bounded
end Foundation
