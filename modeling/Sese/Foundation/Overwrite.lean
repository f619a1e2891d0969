import Mathlib.Data.List.TakeDrop
import Mathlib.Tactic

/-!
# Blocks of a memory

A memory is a list of cells. `window mem pos n` are the `n` cells from `pos` on, and
`overwrite mem pos src` has the cells of `src` there. The rules compute both on a
memory that is given as the concatenation of its blocks.
-/
namespace Foundation

variable {α : Type*}

def window (mem : List α) (pos n : ℕ) : List α := (mem.drop pos).take n

def overwrite (mem : List α) (pos : ℕ) (src : List α) : List α :=
  mem.take pos ++ src ++ mem.drop (pos + src.length)

theorem length_window {mem : List α} {pos n : ℕ} (h : pos + n ≤ mem.length) :
    (window mem pos n).length = n := by
  rw [window, List.length_take, List.length_drop]
  omega

theorem length_overwrite {mem src : List α} {pos : ℕ} (h : pos + src.length ≤ mem.length) :
    (overwrite mem pos src).length = mem.length := by
  simp only [overwrite, List.length_append, List.length_take, List.length_drop]
  omega

theorem getElem?_overwrite {mem src : List α} {pos : ℕ} (h : pos ≤ mem.length) (j : ℕ) :
    (overwrite mem pos src)[j]? =
      if j < pos then mem[j]? else if j < pos + src.length then src[j - pos]? else mem[j]? := by
  have hpos : (mem.take pos).length = pos := by simp [h]
  unfold overwrite
  rw [List.append_assoc]
  split_ifs with hlow hmid
  · rw [List.getElem?_append_left (by omega), List.getElem?_take_of_lt hlow]
  · rw [List.getElem?_append_right (by omega), hpos, List.getElem?_append_left (by omega)]
  · rw [List.getElem?_append_right (by omega), hpos, List.getElem?_append_right (by omega),
      List.getElem?_drop]
    congr 1
    omega

theorem take_overwrite {mem src : List α} {pos n : ℕ} (h : pos ≤ mem.length) (hn : n ≤ pos) :
    (overwrite mem pos src).take n = mem.take n := by
  rw [overwrite, List.append_assoc, List.take_append_of_le_length (by simp [h, hn]), List.take_take,
    Nat.min_eq_left hn]

theorem take_overwrite_add {mem src : List α} {pos n : ℕ} (h : pos ≤ mem.length)
    (hn : n = pos + src.length) : (overwrite mem pos src).take n = mem.take pos ++ src := by
  have hlength : (mem.take pos ++ src).length = n := by simp [h, hn]
  rw [overwrite, ← hlength, List.take_left]

theorem window_append {pre block post : List α} {pos n : ℕ} (hpos : pos = pre.length)
    (hn : n = block.length) : window (pre ++ (block ++ post)) pos n = block := by
  subst hpos hn
  rw [window, List.drop_left, List.take_left]

theorem overwrite_append {pre block post src : List α} {pos : ℕ} (hpos : pos = pre.length)
    (h : src.length = block.length) :
    overwrite (pre ++ (block ++ post)) pos src = pre ++ (src ++ post) := by
  subst hpos
  rw [overwrite, List.take_left, h, ← List.drop_drop, List.drop_left, List.drop_left,
    List.append_assoc]

theorem overwrite_left {pre rest src : List α} {pos : ℕ} (hpos : pos = pre.length)
    (h : src.length ≤ rest.length) :
    overwrite (pre ++ rest) pos src = pre ++ (src ++ rest.drop src.length) := by
  conv_lhs => rw [← List.take_append_drop src.length rest]
  exact overwrite_append hpos (by rw [List.length_take, Nat.min_eq_left h])

end Foundation
