import Mathlib.Logic.Function.Basic
import Mathlib.Tactic

/-!
# Partial functions that mirror each other

Two partial functions, one from each side of a correspondence to the other, are mirrored when
each is the inverse of the other. The rules say when this survives that a pair is added to both
or taken from both.
-/
namespace Foundation

universe u v
variable {α : Type u} {β : Type v}

def Mirrored (f : α → Option β) (g : β → Option α) : Prop :=
  ∀ a b, f a = some b ↔ g b = some a

variable {f : α → Option β} {g : β → Option α}

theorem mirrored_comm : Mirrored f g ↔ Mirrored g f :=
  ⟨fun h b a => (h a b).symm, fun h a b => (h b a).symm⟩

variable [DecidableEq α] [DecidableEq β]

/-- A pair may be added if neither side has another partner. -/
theorem Mirrored.set_iff (h : Mirrored f g) (a : α) (b : β) :
    Mirrored (Function.update f a (some b)) (Function.update g b (some a)) ↔
      (∀ b', f a = some b' → b' = b) ∧ ∀ a', g b = some a' → a' = a := by
  constructor
  · intro hset
    constructor
    · intro b' hb'
      by_contra hne
      have hmirror := (hset a b').mpr (by
        rw [Function.update_of_ne hne]
        exact (h a b').mp hb')
      rw [Function.update_self] at hmirror
      exact hne (Option.some.inj hmirror).symm
    · intro a' ha'
      by_contra hne
      have hmirror := (hset a' b).mp (by
        rw [Function.update_of_ne hne]
        exact (h a' b).mpr ha')
      rw [Function.update_self] at hmirror
      exact hne (Option.some.inj hmirror).symm
  · rintro ⟨hf, hg⟩ x y
    by_cases hx : x = a
    · subst hx
      rw [Function.update_self]
      by_cases hy : y = b
      · subst hy
        rw [Function.update_self]
        exact ⟨fun _ => rfl, fun _ => rfl⟩
      · rw [Function.update_of_ne hy]
        constructor
        · intro heq
          exact absurd (Option.some.inj heq).symm hy
        · intro heq
          exact absurd (hf y ((h x y).mpr heq)) hy
    · rw [Function.update_of_ne hx]
      by_cases hy : y = b
      · subst hy
        rw [Function.update_self]
        constructor
        · intro heq
          exact absurd (hg x ((h x y).mp heq)) hx
        · intro heq
          exact absurd (Option.some.inj heq).symm hx
      · rw [Function.update_of_ne hy]
        exact h x y

/-- A pair may be taken away if it is there, or if neither side has a partner. -/
theorem Mirrored.unset_iff (h : Mirrored f g) (a : α) (b : β) :
    Mirrored (Function.update f a none) (Function.update g b none) ↔
      f a = some b ∨ f a = none ∧ g b = none := by
  constructor
  · intro hunset
    cases hf : f a with
    | some b' =>
      left
      by_contra hne
      have hb' : b' ≠ b := fun heq => hne (by rw [heq])
      have hmirror := (hunset a b').mpr (by
        rw [Function.update_of_ne hb']
        exact (h a b').mp hf)
      rw [Function.update_self] at hmirror
      cases hmirror
    | none =>
      refine .inr ⟨rfl, ?_⟩
      cases hg : g b with
      | none => rfl
      | some a' =>
        have ha' : a' ≠ a := by
          rintro rfl
          rw [(h a' b).mpr hg] at hf
          cases hf
        have hmirror := (hunset a' b).mp (by
          rw [Function.update_of_ne ha']
          exact (h a' b).mpr hg)
        rw [Function.update_self] at hmirror
        cases hmirror
  · intro hpair x y
    by_cases hx : x = a
    · subst hx
      rw [Function.update_self]
      by_cases hy : y = b
      · subst hy
        rw [Function.update_self]
        exact ⟨fun heq => (by cases heq), fun heq => (by cases heq)⟩
      · rw [Function.update_of_ne hy]
        constructor
        · intro heq
          cases heq
        · intro heq
          have hf := (h x y).mpr heq
          rcases hpair with hpair | ⟨hpair, -⟩
          · rw [hpair] at hf
            exact absurd (Option.some.inj hf).symm hy
          · rw [hpair] at hf
            cases hf
    · rw [Function.update_of_ne hx]
      by_cases hy : y = b
      · subst hy
        rw [Function.update_self]
        constructor
        · intro heq
          have hg := (h x y).mp heq
          rcases hpair with hpair | ⟨-, hpair⟩
          · rw [(h a y).mp hpair] at hg
            exact absurd (Option.some.inj hg).symm hx
          · rw [hpair] at hg
            cases hg
        · intro heq
          cases heq
      · rw [Function.update_of_ne hy]
        exact h x y

end Foundation
