import Mathlib.Data.List.Basic
import Mathlib.Tactic

/-!
# Asking others

Every member of a network may know something itself, and asks others, one after another, what it
does not know. Nobody is asked in a circle: `height` falls from a member to those that it asks.
Members that keep what they were told do not change what anybody comes to know.
-/
namespace Foundation

structure Network (ι : Type*) where
  asks : ι → List ι
  height : ι → ℕ
  lower : ∀ i, ∀ j ∈ asks i, height j < height i

namespace Network

variable {ι α : Type*} (net : Network ι)

/-- What `i` knows or is told, if no question is passed on more than `fuel` times. -/
def knownWithin (own : ι → Option α) : ℕ → ι → Option α
  | 0, _ => none
  | fuel + 1, i => (own i).or ((net.asks i).findSome? (knownWithin own fuel))

theorem knownWithin_succ (own : ι → Option α) (fuel : ℕ) (i : ι) :
    net.knownWithin own (fuel + 1) i =
      (own i).or ((net.asks i).findSome? (net.knownWithin own fuel)) := rfl

/-- What `i` knows or is told. -/
def known (own : ι → Option α) (i : ι) : Option α := net.knownWithin own (net.height i + 1) i

/-- What `i` is told. -/
def told (own : ι → Option α) (i : ι) : Option α := (net.asks i).findSome? (net.known own)

variable {net} {own own' own'' : ι → Option α} {i : ι}

theorem findSome?_congr {f g : ι → Option α} {is : List ι} (h : ∀ i ∈ is, f i = g i) :
    is.findSome? f = is.findSome? g := by
  induction is with
  | nil => rfl
  | cons i is ih =>
    obtain ⟨hi, his⟩ := List.forall_mem_cons.mp h
    rw [List.findSome?_cons, List.findSome?_cons, hi, ih his]

theorem knownWithin_congr {fuel fuel' : ℕ} (h : net.height i < fuel) (h' : net.height i < fuel') :
    net.knownWithin own fuel i = net.knownWithin own fuel' i := by
  induction fuel generalizing fuel' i with
  | zero => exact absurd h (Nat.not_lt_zero _)
  | succ fuel ih =>
    cases fuel' with
    | zero => exact absurd h' (Nat.not_lt_zero _)
    | succ fuel' =>
      rw [knownWithin_succ, knownWithin_succ]
      congr 1
      apply findSome?_congr
      intro j hj
      have hlower := net.lower i j hj
      exact ih (by omega) (by omega)

theorem known_eq : net.known own i = (own i).or (net.told own i) := by
  rw [known, knownWithin_succ]
  congr 1
  apply findSome?_congr
  intro j hj
  exact knownWithin_congr (net.lower i j hj) (Nat.lt_succ_self _)

theorem known_of_own {a : α} (h : own i = some a) : net.known own i = some a := by
  rw [known_eq, h, Option.some_or]

theorem known_of_not_own (h : own i = none) : net.known own i = net.told own i := by
  rw [known_eq, h, Option.none_or]

/-- What is known has come from somebody. -/
theorem exists_own {a : α} (h : net.known own i = some a) : ∃ j, own j = some a := by
  induction hn : net.height i using Nat.strong_induction_on generalizing i with
  | _ n ih =>
    rw [known_eq, Option.or_eq_some_iff] at h
    rcases h with h | ⟨-, h⟩
    · exact ⟨i, h⟩
    · obtain ⟨j, hj, h⟩ := List.exists_of_findSome?_eq_some h
      exact ih _ (hn ▸ net.lower i j hj) h rfl

def Keeps (net : Network ι) (own own' : ι → Option α) : Prop :=
  ∀ i, own' i = own i ∨ own' i = net.known own i

theorem Keeps.refl : Keeps net own own := fun _ => .inl rfl

/-- Everybody comes to know the same as before. -/
theorem Keeps.known_eq (h : Keeps net own own') (i : ι) : net.known own' i = net.known own i := by
  induction hn : net.height i using Nat.strong_induction_on generalizing i with
  | _ n ih =>
    have htold : net.told own' i = net.told own i := by
      apply findSome?_congr
      intro j hj
      exact ih _ (hn ▸ net.lower i j hj) j rfl
    rw [Network.known_eq, htold]
    rcases h i with hsame | hkept
    · rw [hsame, ← Network.known_eq]
    · rw [hkept, Network.known_eq]
      cases own i with
      | none => exact Option.or_self
      | some a => rfl

theorem Keeps.told_eq (h : Keeps net own own') (i : ι) : net.told own' i = net.told own i :=
  findSome?_congr fun j _ => h.known_eq j

theorem Keeps.trans (h : Keeps net own own') (h' : Keeps net own' own'') : Keeps net own own'' := by
  intro i
  rcases h' i with hsame | hkept
  · rw [hsame]
    exact h i
  · rw [hkept, h.known_eq]
    exact .inr rfl

end Network

end Foundation
