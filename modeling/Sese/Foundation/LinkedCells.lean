import Mathlib.Data.List.Nodup
import Mathlib.Logic.Function.Basic
import Mathlib.Tactic

/-!
# Linked cells

A memory maps the addresses that are in use to nodes, and a node points to the next one.
`Chain heap link addresses values` says that the nodes from `link` on are at `addresses` and hold
`values`, and that the last of them points to nothing.
-/
namespace Foundation

universe u

structure Node (T : Type u) where
  value : T
  next : Option ℕ

variable {T : Type u} {heap heap' : ℕ → Option (Node T)} {link : Option ℕ} {a b : ℕ} {v : T}
  {as : List ℕ} {vs : List T}

inductive Chain (heap : ℕ → Option (Node T)) : Option ℕ → List ℕ → List T → Prop
  | nil : Chain heap none [] []
  | cons {a : ℕ} {v : T} {next : Option ℕ} {as : List ℕ} {vs : List T} :
      heap a = some ⟨v, next⟩ → Chain heap next as vs → Chain heap (some a) (a :: as) (v :: vs)

namespace Chain

/-- The link determines the chain. -/
theorem unique (h : Chain heap link as vs) {as' : List ℕ} {vs' : List T}
    (h' : Chain heap link as' vs') : as = as' := by
  induction h generalizing as' vs' with
  | nil =>
    cases h'
    rfl
  | cons hnode _ ih =>
    cases h' with
    | cons hnode' hrest =>
      rw [hnode] at hnode'
      cases hnode'
      rw [ih hrest]

theorem of_mem (h : Chain heap link as vs) (ha : a ∈ as) :
    ∃ as' vs', Chain heap (some a) (a :: as') vs' ∧ a :: as' <:+ as := by
  induction h with
  | nil => cases ha
  | @cons b v next as vs hnode hrest ih =>
    rcases List.mem_cons.mp ha with rfl | ha
    · exact ⟨as, v :: vs, .cons hnode hrest, List.suffix_rfl⟩
    · obtain ⟨as', vs', hchain, hsuffix⟩ := ih ha
      exact ⟨as', vs', hchain, hsuffix.trans (List.suffix_cons b as)⟩

/-- A chain that ends passes no node twice. -/
theorem nodup (h : Chain heap link as vs) : as.Nodup := by
  induction h with
  | nil => exact List.nodup_nil
  | @cons a v next as vs hnode hrest ih =>
    rw [List.nodup_cons]
    refine ⟨?_, ih⟩
    intro hmem
    obtain ⟨as', vs', hchain, hsuffix⟩ := hrest.of_mem hmem
    have hsame := (Chain.cons hnode hrest).unique hchain
    rw [← hsame] at hsuffix
    have hlength := hsuffix.length_le
    rw [List.length_cons] at hlength
    omega

theorem congr (h : Chain heap link as vs) (heq : ∀ a ∈ as, heap' a = heap a) :
    Chain heap' link as vs := by
  induction h with
  | nil => exact .nil
  | @cons a v next as vs hnode _ ih =>
    apply Chain.cons
    · rw [heq a List.mem_cons_self]
      exact hnode
    · exact ih fun b hb => heq b (List.mem_cons_of_mem a hb)

theorem update (h : Chain heap link as vs) (ha : a ∉ as) (node : Option (Node T)) :
    Chain (Function.update heap a node) link as vs := by
  apply h.congr
  intro b hb
  apply Function.update_of_ne
  intro hba
  exact ha (hba ▸ hb)

theorem mem_tail (h : Chain heap link as vs) (ha : a ∈ as) (hnode : heap a = some ⟨v, some b⟩) :
    b ∈ as.tail := by
  obtain ⟨as', vs', hchain, hsuffix⟩ := h.of_mem ha
  cases hchain with
  | cons hnode' hrest =>
    rw [hnode] at hnode'
    cases hnode'
    cases hrest with
    | cons _ _ =>
      obtain ⟨front, rfl⟩ := hsuffix
      cases front <;> simp

theorem snoc (h : Chain heap link as vs) {w : T} (ha : a ∈ as) (hnode : heap a = some ⟨v, none⟩)
    (hb : heap b = some ⟨w, none⟩) (hnew : b ∉ as) :
    Chain (Function.update heap a (some ⟨v, some b⟩)) link (as ++ [b]) (vs ++ [w]) := by
  induction h with
  | nil => cases ha
  | @cons c x next as vs hfirst hrest ih =>
    have hca := (Chain.cons hfirst hrest).nodup
    rw [List.nodup_cons] at hca
    rw [List.mem_cons, not_or] at hnew
    by_cases hac : a = c
    · subst hac
      rw [hnode] at hfirst
      cases hfirst
      cases hrest
      apply Chain.cons (Function.update_self ..)
      apply Chain.cons _ .nil
      rw [Function.update_of_ne hnew.1]
      exact hb
    · have hmem : a ∈ as := (List.mem_cons.mp ha).resolve_left hac
      apply Chain.cons
      · rw [Function.update_of_ne (Ne.symm hac)]
        exact hfirst
      · exact ih hmem hnew.2

theorem isNone_eq_isEmpty (h : Chain heap link as vs) : link.isNone = vs.isEmpty := by
  cases h <;> rfl

end Chain
end Foundation
