import Mathlib.Data.List.Basic
import Mathlib.Tactic

/-!
# A sequence that arrives in segments

The segments are nonempty lists whose concatenation is the sequence. The one that
brings the `n`-th element may bring more than that; `restAt` says what is left after
exactly `n` elements, which is only defined when a segment ends there.
-/
namespace Foundation

variable {α : Type*}

/-- The segments after the first `n` elements, if one of them ends there. -/
def restAt : List (List α) → ℕ → Option (List (List α))
  | segs, 0 => some segs
  | [], _ + 1 => none
  | s :: segs, n + 1 => if s.length ≤ n + 1 then restAt segs (n + 1 - s.length) else none

@[simp] theorem restAt_zero (segs : List (List α)) : restAt segs 0 = some segs := by
  cases segs <;> rfl

theorem restAt_cons (s : List α) (segs : List (List α)) (n : ℕ) :
    restAt (s :: segs) n =
      if n = 0 then some (s :: segs)
      else if s.length ≤ n then restAt segs (n - s.length) else none := by
  cases n with
  | zero => rfl
  | succ n => rfl

theorem restAt_append {before after : List (List α)} {n : ℕ} (hb : ∀ s ∈ before, s ≠ [])
    (h : before.flatten.length ≤ n) :
    restAt (before ++ after) n = restAt after (n - before.flatten.length) := by
  induction before generalizing n with
  | nil => rfl
  | cons s before ih =>
    rw [List.flatten_cons, List.length_append] at h
    have hs : s ≠ [] := hb s List.mem_cons_self
    have hpos : 0 < s.length := List.length_pos_of_ne_nil hs
    rw [List.cons_append, restAt_cons, if_neg (by omega), if_pos (by omega),
      ih (fun s hs => hb s (List.mem_cons_of_mem _ hs)) (by omega), List.flatten_cons,
      List.length_append, Nat.sub_sub]

theorem exists_reaching {segs : List (List α)} {n : ℕ} (hpos : 0 < n)
    (h : n ≤ segs.flatten.length) :
    ∃ before s after, segs = before ++ s :: after ∧ before.flatten.length < n ∧
      n ≤ before.flatten.length + s.length := by
  induction segs generalizing n with
  | nil =>
    rw [List.flatten_nil, List.length_nil] at h
    omega
  | cons s segs ih =>
    rw [List.flatten_cons, List.length_append] at h
    by_cases hn : n ≤ s.length
    · exact ⟨[], s, segs, rfl, hpos, by simpa using hn⟩
    · obtain ⟨before, s', after, rfl, hlt, hle⟩ := ih (n := n - s.length) (by omega) (by omega)
      refine ⟨s :: before, s', after, rfl, ?_, ?_⟩
      · rw [List.flatten_cons, List.length_append]
        omega
      · rw [List.flatten_cons, List.length_append]
        omega

theorem exists_segment {segs : List (List α)} {head rest : List α} {x : α}
    (h : segs.flatten = head ++ x :: rest) :
    ∃ before tail extra after, segs = before ++ (tail ++ x :: extra) :: after ∧
      head = before.flatten ++ tail ∧ rest = extra ++ after.flatten := by
  induction segs generalizing head with
  | nil => simp at h
  | cons s segs ih =>
    rw [List.flatten_cons] at h
    obtain ⟨t, hhead, hrest⟩ | ⟨t, hs, hrest⟩ := List.append_eq_append_iff.mp h
    · obtain ⟨before, tail, extra, after, rfl, rfl, rfl⟩ := ih hrest
      exact ⟨s :: before, tail, extra, after, rfl, by simp [hhead], rfl⟩
    · cases t with
      | nil =>
        -- the segment ends just before the element
        rw [List.append_nil] at hs
        have hnone : segs.flatten = [] ++ x :: rest := hrest.symm
        obtain ⟨before, tail, extra, after, rfl, hnil, rfl⟩ := ih hnone
        refine ⟨s :: before, tail, extra, after, rfl, ?_, rfl⟩
        rw [List.flatten_cons, List.append_assoc, ← hnil, List.append_nil, hs]
      | cons y t =>
        rw [List.cons_append, List.cons.injEq] at hrest
        obtain ⟨rfl, rfl⟩ := hrest
        exact ⟨[], head, t, segs, by rw [hs]; rfl, by simp, rfl⟩

theorem restAt_reaching {before after : List (List α)} {s : List α} {n k : ℕ}
    (hne : ∀ d ∈ before ++ s :: after, d ≠ []) (hlt : before.flatten.length < n)
    (hle : n ≤ before.flatten.length + s.length) :
    restAt (before ++ s :: after) (n + k) =
      if before.flatten.length + s.length - n ≤ k
      then restAt after (k - (before.flatten.length + s.length - n)) else none := by
  have hb : ∀ d ∈ before, d ≠ [] := fun d hd => hne d (List.mem_append_left _ hd)
  have hs : s ≠ [] := hne s (by simp)
  rw [restAt_append hb (by omega), restAt_cons, if_neg (by omega)]
  by_cases hk : before.flatten.length + s.length - n ≤ k
  · rw [if_pos hk, if_pos (by omega)]
    congr 1
    omega
  · rw [if_neg hk, if_neg (by omega)]

/-- A list that is its own shift by one element has only that element. -/
theorem eq_of_shift {a : α} {v x t : List α} (h : v ++ x = a :: (v ++ t)) : ∀ b ∈ v, b = a := by
  induction v with
  | nil =>
    intro b hb
    cases hb
  | cons c v ih =>
    simp only [List.cons_append, List.cons.injEq] at h
    obtain ⟨rfl, h⟩ := h
    intro b hb
    obtain rfl | hb := List.mem_cons.mp hb
    · rfl
    · exact ih h b hb

theorem cons_eq_concat {a : α} {v : List α} (h : ∀ b ∈ v, b = a) : a :: v = v ++ [a] := by
  rw [List.eq_replicate_of_mem h, ← List.replicate_succ, List.replicate_succ']

/-- Taken one element early, a list is as it should be when all its elements are the
one before it. -/
theorem shift_iff {a : α} {u v x t : List α} (hlen : u.length = v.length)
    (h : u ++ x = a :: (v ++ t)) : u = v ↔ ∀ b ∈ v, b = a := by
  constructor
  · rintro rfl
    exact eq_of_shift h
  · intro hall
    rw [← List.cons_append, cons_eq_concat hall, List.append_assoc] at h
    exact (List.append_inj h hlen).1

theorem shift_rest {a : α} {v x t : List α} (h : v ++ x = a :: (v ++ t)) : x = a :: t := by
  rw [← List.cons_append, cons_eq_concat (eq_of_shift h), List.append_assoc] at h
  exact List.append_cancel_left h

end Foundation
