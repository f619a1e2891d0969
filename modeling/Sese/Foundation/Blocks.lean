import Mathlib.Data.List.Perm.Basic
import Mathlib.Data.List.Nodup
import Mathlib.Data.List.Count
import Mathlib.Logic.Function.Basic
import Mathlib.Tactic

/-!
# Blocks of memory

Blocks that are allocated, written and freed by their addresses. `Owned` says of a list of
addresses that no two of them are one and that there is a block at each.
-/
namespace Foundation

/-- The blocks in use, and the address that the next one gets. -/
structure Blocks (α : Type*) where
  get : ℕ → Option α := fun _ => none
  fresh : ℕ := 0

namespace Blocks

variable {α β : Type*}

def alloc (m : Blocks α) (a : α) : Blocks α :=
  { get := Function.update m.get m.fresh (some a), fresh := m.fresh + 1 }

def set (m : Blocks α) (p : ℕ) (a : α) : Blocks α :=
  { m with get := Function.update m.get p (some a) }

def free (m : Blocks α) (p : ℕ) : Option (Blocks α) :=
  if (m.get p).isSome then some { m with get := Function.update m.get p none } else none

def freeAll (m : Blocks α) (ps : List ℕ) : Option (Blocks α) := ps.foldlM free m

def gather (m : Blocks (List β)) (ps : List ℕ) : List β := ps.flatMap fun p => (m.get p).getD []

structure Owned (m : Blocks α) (ps : List ℕ) : Prop where
  nodup : ps.Nodup
  live : ∀ p ∈ ps, (m.get p).isSome
  fresh : ∀ p ∈ ps, p < m.fresh

@[simp] theorem set_get (m : Blocks α) (p : ℕ) (a : α) : (m.set p a).get p = some a := by
  simp [set]

theorem set_get_of_ne (m : Blocks α) {p q : ℕ} (a : α) (h : q ≠ p) :
    (m.set p a).get q = m.get q := by
  simp [set, h]

@[simp] theorem alloc_get (m : Blocks α) (a : α) : (m.alloc a).get m.fresh = some a := by
  simp [alloc]

section Gather

variable {m m' : Blocks (List β)} {p : ℕ} {ps qs : List ℕ}

@[simp] theorem gather_nil : m.gather [] = [] := rfl

@[simp] theorem gather_append : m.gather (ps ++ qs) = m.gather ps ++ m.gather qs :=
  List.flatMap_append

theorem gather_cons : m.gather (p :: ps) = (m.get p).getD [] ++ m.gather ps := rfl

theorem gather_singleton {a : List β} (h : m.get p = some a) : m.gather [p] = a := by
  simp [gather, h]

theorem gather_congr (h : ∀ p ∈ ps, m'.get p = m.get p) : m'.gather ps = m.gather ps := by
  unfold gather
  apply List.flatMap_congr
  intro p hp
  rw [h p hp]

theorem gather_set_of_notMem (a : List β) (h : p ∉ ps) : (m.set p a).gather ps = m.gather ps := by
  apply gather_congr
  intro q hq
  apply set_get_of_ne
  rintro rfl
  exact h hq

end Gather

namespace Owned

variable {m : Blocks α} {p : ℕ} {ps qs : List ℕ}

theorem perm (h : m.Owned ps) (hperm : ps.Perm qs) : m.Owned qs where
  nodup := hperm.nodup_iff.mp h.nodup
  live p hp := h.live p (hperm.mem_iff.mpr hp)
  fresh p hp := h.fresh p (hperm.mem_iff.mpr hp)

theorem sublist (h : m.Owned ps) (hsub : qs.Sublist ps) : m.Owned qs where
  nodup := h.nodup.sublist hsub
  live p hp := h.live p (hsub.subset hp)
  fresh p hp := h.fresh p (hsub.subset hp)

theorem get_eq (h : m.Owned ps) (hp : p ∈ ps) : ∃ a, m.get p = some a :=
  Option.isSome_iff_exists.mp (h.live p hp)

theorem set (h : m.Owned ps) (p : ℕ) (a : α) : (m.set p a).Owned ps where
  nodup := h.nodup
  live q hq := by
    by_cases hqp : q = p
    · simp [hqp]
    · rw [set_get_of_ne m a hqp]
      exact h.live q hq
  fresh := h.fresh

theorem alloc_get_of_mem (h : m.Owned ps) (a : α) (hp : p ∈ ps) :
    (m.alloc a).get p = m.get p := by
  have hne : p ≠ m.fresh := (h.fresh p hp).ne
  simp [Blocks.alloc, hne]

theorem alloc (h : m.Owned ps) (a : α) : (m.alloc a).Owned (m.fresh :: ps) where
  nodup := List.nodup_cons.mpr ⟨fun hmem => (h.fresh _ hmem).ne rfl, h.nodup⟩
  live p hp := by
    rcases List.mem_cons.mp hp with rfl | hp
    · simp
    · rw [h.alloc_get_of_mem a hp]
      exact h.live p hp
  fresh p hp := by
    change p < m.fresh + 1
    rcases List.mem_cons.mp hp with rfl | hp
    · exact Nat.lt_succ_self _
    · exact (h.fresh p hp).trans (Nat.lt_succ_self _)

theorem free (h : m.Owned (p :: ps)) :
    ∃ m', m.free p = some m' ∧ m'.Owned ps ∧ ∀ q ∈ ps, m'.get q = m.get q := by
  have hp : p ∉ ps := (List.nodup_cons.mp h.nodup).1
  have hget : ∀ q ∈ ps, Function.update m.get p none q = m.get q := by
    intro q hq
    apply Function.update_of_ne
    rintro rfl
    exact hp hq
  refine ⟨_, if_pos (h.live p (List.mem_cons_self ..)), ⟨(List.nodup_cons.mp h.nodup).2, ?_, ?_⟩,
    hget⟩
  · intro q hq
    dsimp only
    rw [hget q hq]
    exact h.live q (List.mem_cons_of_mem p hq)
  · exact fun q hq => h.fresh q (List.mem_cons_of_mem p hq)

/-- What the owners of a list of blocks free, nobody else loses. -/
theorem freeAll (h : m.Owned (ps ++ qs)) :
    ∃ m', m.freeAll ps = some m' ∧ m'.Owned qs ∧ ∀ q ∈ qs, m'.get q = m.get q := by
  induction ps generalizing m with
  | nil => exact ⟨m, rfl, h, fun q _ => rfl⟩
  | cons p ps ih =>
    obtain ⟨m', hfree, hm', hget⟩ := h.free
    obtain ⟨m'', hall, hm'', hget'⟩ := ih hm'
    refine ⟨m'', ?_, hm'', ?_⟩
    · rw [Blocks.freeAll, List.foldlM_cons, hfree]
      exact hall
    · intro q hq
      rw [hget' q hq, hget q (List.mem_append_right ps hq)]

end Owned

end Blocks
end Foundation
