import Mathlib.Combinatorics.Pigeonhole
import Mathlib.Data.Finset.Card
import Mathlib.Tactic

/-!
# Orbits of a partial function

`orbit f n a` is where `n` steps of `f` lead from `a`, if all of them are defined. When
only finitely many elements can be reached, the steps come to an end exactly if no
element is met twice, and `card` many steps meet all of them.
-/
namespace Foundation

variable {α : Type*}

def orbit (f : α → Option α) : ℕ → α → Option α
  | 0, a => some a
  | n + 1, a => (f a).bind (orbit f n)

/-- Some number of steps leads from `a` to `b`. -/
def Leads (f : α → Option α) (a b : α) : Prop := ∃ n, orbit f n a = some b

/-- Neither `a` nor an element after it is met a second time. -/
def NeverReturns (f : α → Option α) (a : α) : Prop :=
  ∀ b, Leads f a b → ∀ n, 0 < n → orbit f n b ≠ some b

variable {f : α → Option α} {a b c : α}

@[simp] theorem orbit_zero : orbit f 0 a = some a := rfl

theorem orbit_succ (n : ℕ) : orbit f (n + 1) a = (f a).bind (orbit f n) := rfl

theorem orbit_add (m n : ℕ) (a : α) : orbit f (m + n) a = (orbit f m a).bind (orbit f n) := by
  induction m generalizing a with
  | zero => rw [Nat.zero_add, orbit_zero, Option.bind_some]
  | succ m ih =>
    rw [Nat.succ_add, orbit_succ, orbit_succ]
    cases f a with
    | none => rfl
    | some c => exact ih c

theorem Leads.refl (f : α → Option α) (a : α) : Leads f a a := ⟨0, rfl⟩

theorem Leads.trans (h : Leads f a b) (h' : Leads f b c) : Leads f a c := by
  obtain ⟨m, hm⟩ := h
  obtain ⟨n, hn⟩ := h'
  exact ⟨m + n, by rw [orbit_add, hm, Option.bind_some, hn]⟩

theorem Leads.step (h : f a = some b) : Leads f a b :=
  ⟨1, by rw [orbit_succ, h, Option.bind_some, orbit_zero]⟩

theorem Leads.cases (h : Leads f a c) : a = c ∨ ∃ b, f a = some b ∧ Leads f b c := by
  obtain ⟨n, hn⟩ := h
  cases n with
  | zero => exact .inl (Option.some.inj hn)
  | succ n =>
    rw [orbit_succ] at hn
    obtain ⟨b, hb, hbc⟩ := Option.bind_eq_some_iff.mp hn
    exact .inr ⟨b, hb, n, hbc⟩

theorem orbit_isSome_of_le {m n : ℕ} (h : m ≤ n) (hn : (orbit f n a).isSome) :
    (orbit f m a).isSome := by
  obtain ⟨k, rfl⟩ := Nat.exists_eq_add_of_le h
  rw [orbit_add] at hn
  cases hm : orbit f m a with
  | none => simp [hm] at hn
  | some b => rfl

theorem orbit_mul_of_cycle {n : ℕ} (h : orbit f n a = some a) (k : ℕ) :
    orbit f (k * n) a = some a := by
  induction k with
  | zero => rw [Nat.zero_mul, orbit_zero]
  | succ k ih => rw [Nat.succ_mul, orbit_add, ih, Option.bind_some, h]

theorem neverReturns_of_orbit_eq_none {n : ℕ} (hnone : orbit f n a = none) : NeverReturns f a := by
  intro b hab k hk hcycle
  obtain ⟨m, hm⟩ := hab
  have hlong : (orbit f (m + n * k) a).isSome := by
    rw [orbit_add, hm, Option.bind_some, orbit_mul_of_cycle hcycle]
    rfl
  have := orbit_isSome_of_le (Nat.le_add_left_of_le (Nat.le_mul_of_pos_right n hk)) hlong
  rw [hnone] at this
  cases this

theorem forall_orbit_lt_succ {P : α → Prop} {n : ℕ} :
    (∀ k < n + 1, ∀ b, orbit f k a = some b → P b) ↔
      P a ∧ ∀ c, f a = some c → ∀ k < n, ∀ b, orbit f k c = some b → P b := by
  constructor
  · intro h
    refine ⟨h 0 (Nat.succ_pos n) a rfl, ?_⟩
    intro c hc k hk b hb
    exact h (k + 1) (Nat.succ_lt_succ hk) b (by rw [orbit_succ, hc, Option.bind_some, hb])
  · rintro ⟨ha, h⟩ k hk b hb
    cases k with
    | zero => exact Option.some.inj hb ▸ ha
    | succ k =>
      obtain ⟨c, hc, hcb⟩ := Option.bind_eq_some_iff.mp hb
      exact h c hc k (Nat.lt_of_succ_lt_succ hk) b hcb

section Finite

variable (S : Finset α) (hS : ∀ b, Leads f a b → b ∈ S)

include hS

/-- More steps than there are elements meet one of them twice. -/
theorem exists_orbit_eq {n : ℕ} (hcard : S.card ≤ n) (hn : (orbit f n a).isSome) :
    ∃ i j b, i < j ∧ j ≤ n ∧ orbit f i a = some b ∧ orbit f j a = some b := by
  have hsome : ∀ i ∈ Finset.range (n + 1), (orbit f i a).isSome := fun i hi =>
    orbit_isSome_of_le (Nat.le_of_lt_succ (Finset.mem_range.mp hi)) hn
  have hmaps : ∀ i ∈ Finset.range (n + 1), (orbit f i a).getD a ∈ S := by
    intro i hi
    obtain ⟨b, hb⟩ := Option.isSome_iff_exists.mp (hsome i hi)
    rw [hb]
    exact hS b ⟨i, hb⟩
  obtain ⟨i, hi, j, hj, hne, heq⟩ := Finset.exists_ne_map_eq_of_card_lt_of_maps_to
    (by rw [Finset.card_range]; exact Nat.lt_succ_of_le hcard) hmaps
  obtain ⟨b, hb⟩ := Option.isSome_iff_exists.mp (hsome i hi)
  obtain ⟨c, hc⟩ := Option.isSome_iff_exists.mp (hsome j hj)
  rw [hb, hc, Option.getD_some, Option.getD_some] at heq
  subst heq
  rw [Finset.mem_range] at hi hj
  rcases Nat.lt_or_gt_of_ne hne with h | h
  · exact ⟨i, j, b, h, by omega, hb, hc⟩
  · exact ⟨j, i, b, h, by omega, hc, hb⟩

theorem orbit_eq_none_iff {n : ℕ} (hcard : S.card ≤ n) :
    orbit f n a = none ↔ NeverReturns f a := by
  constructor
  · exact neverReturns_of_orbit_eq_none
  · intro hacyclic
    by_contra hne
    obtain ⟨i, j, b, hij, -, hi, hj⟩ := exists_orbit_eq S hS hcard (Option.ne_none_iff_isSome.mp hne)
    obtain ⟨k, rfl⟩ := Nat.exists_eq_add_of_lt hij
    rw [Nat.add_assoc, orbit_add, hi, Option.bind_some] at hj
    exact hacyclic b ⟨i, hi⟩ (k + 1) (Nat.succ_pos k) hj

theorem exists_orbit_lt_card (h : Leads f a b) : ∃ i < S.card, orbit f i a = some b := by
  classical
  obtain ⟨hfind, hmin⟩ := And.intro (Nat.find_spec h) (fun m => Nat.find_min (m := m) h)
  refine ⟨Nat.find h, ?_, hfind⟩
  by_contra hge
  obtain ⟨i, j, c, hij, hj, hic, hjc⟩ := exists_orbit_eq S hS (not_lt.mp hge)
    (Option.isSome_iff_exists.mpr ⟨b, hfind⟩)
  obtain ⟨k, hk⟩ := Nat.exists_eq_add_of_le hj
  refine hmin (i + k) (by omega) ?_
  rw [hk, orbit_add, hjc, Option.bind_some] at hfind
  rw [orbit_add, hic, Option.bind_some, hfind]

end Finite

end Foundation
