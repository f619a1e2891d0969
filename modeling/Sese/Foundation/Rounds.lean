import Mathlib.Logic.Relation
import Mathlib.Tactic

/-!
# Loops

A loop repeats a round, which stops with an error, goes on with another state or delivers a
result. `Delivers` is what a loop comes to with any number of rounds, `Visits` the states on the
way.
-/
namespace Foundation

variable {ε σ α : Type*}

/-- A loop with at most so many rounds; `stop` is the error when they are used up. -/
def iterate (stop : ε) (round : σ → Except ε (σ ⊕ α)) : ℕ → σ → Except ε α
  | 0, _ => .error stop
  | fuel + 1, s =>
    match round s with
    | .error e => .error e
    | .ok (.inl s) => iterate stop round fuel s
    | .ok (.inr a) => .ok a

inductive Delivers (round : σ → Except ε (σ ⊕ α)) : σ → α → Prop
  | done {s : σ} {a : α} : round s = .ok (.inr a) → Delivers round s a
  | more {s s' : σ} {a : α} : round s = .ok (.inl s') → Delivers round s' a → Delivers round s a

/-- Some number of rounds leads from one state to the other. -/
def Visits (round : σ → Except ε (σ ⊕ α)) : σ → σ → Prop :=
  Relation.ReflTransGen fun s s' => round s = .ok (.inl s')

variable {round : σ → Except ε (σ ⊕ α)} {s s' : σ} {a : α}

theorem iterate_succ (stop : ε) (round : σ → Except ε (σ ⊕ α)) (fuel : ℕ) (s : σ) :
    iterate stop round (fuel + 1) s =
      match round s with
      | .error e => .error e
      | .ok (.inl s') => iterate stop round fuel s'
      | .ok (.inr a) => .ok a := rfl

theorem Visits.step (h : round s = .ok (.inl s')) : Visits round s s' := .single h

theorem Delivers.unique {b : α} (h : Delivers round s a) (h' : Delivers round s b) : a = b := by
  induction h with
  | done hround =>
    cases h' with
    | done hround' => exact Sum.inr.inj (Except.ok.inj (hround.symm.trans hround'))
    | more hround' _ => cases hround.symm.trans hround'
  | more hround _ ih =>
    cases h' with
    | done hround' => cases hround.symm.trans hround'
    | more hround' hmore =>
      obtain rfl := Sum.inl.inj (Except.ok.inj (hround.symm.trans hround'))
      exact ih hmore

theorem Visits.delivers (h : Visits round s s') : Delivers round s a ↔ Delivers round s' a := by
  induction h with
  | refl => exact Iff.rfl
  | tail _ hround ih =>
    rw [ih]
    constructor
    · intro h
      cases h with
      | done hdone => cases hround.symm.trans hdone
      | more hmore h =>
        obtain rfl := Sum.inl.inj (Except.ok.inj (hround.symm.trans hmore))
        exact h
    · exact .more hround

/-- What every round keeps holds when the loop delivers its result. -/
theorem Delivers.invariant {I : σ → Prop} {P : α → Prop}
    (hmore : ∀ s s', I s → round s = .ok (.inl s') → I s')
    (hdone : ∀ s a, I s → round s = .ok (.inr a) → P a) (h : Delivers round s a) (hs : I s) : P a := by
  induction h with
  | done hround => exact hdone _ _ hs hround
  | more hround _ ih => exact ih (hmore _ _ hs hround)

/-- A loop whose rounds descend in a well-founded order, as long as they do not stop it, comes to
an end. -/
theorem delivers_or_stops {r : σ → σ → Prop} (hr : WellFounded r) {I : σ → Prop} {e : ε}
    (hround : ∀ s, I s → round s = .error e ∨ (∃ a, round s = .ok (.inr a)) ∨
      ∃ s', round s = .ok (.inl s') ∧ I s' ∧ r s' s) (hs : I s) :
    (∃ a, Delivers round s a) ∨ ∃ s', Visits round s s' ∧ round s' = .error e := by
  induction s using hr.induction with
  | _ s ih =>
    rcases hround s hs with hstop | ⟨a, hdone⟩ | ⟨s', hmore, hs', hdown⟩
    · exact .inr ⟨s, .refl, hstop⟩
    · exact .inl ⟨a, .done hdone⟩
    · rcases ih s' hdown hs' with ⟨a, ha⟩ | ⟨t, hvisits, hstop⟩
      · exact .inl ⟨a, .more hmore ha⟩
      · exact .inr ⟨t, (Visits.step hmore).trans hvisits, hstop⟩

theorem iterate_of_ne {stop : ε} {m n : ℕ} (h : iterate stop round m s ≠ .error stop) (hle : m ≤ n) :
    iterate stop round n s = iterate stop round m s := by
  induction m generalizing s n with
  | zero => exact absurd rfl h
  | succ m ih =>
    obtain ⟨n, rfl⟩ : ∃ k, n = k + 1 := ⟨n - 1, by omega⟩
    rw [iterate_succ] at h ⊢
    rw [iterate_succ]
    cases hround : round s with
    | error e => rfl
    | ok next =>
      rw [hround] at h
      cases next with
      | inl s' => exact ih h (by omega)
      | inr a' => rfl

theorem iterate_mono {stop : ε} {m n : ℕ} (h : iterate stop round m s = .ok a) (hle : m ≤ n) :
    iterate stop round n s = .ok a := by
  rw [iterate_of_ne (by simp [h]) hle, h]

theorem iterate_more {stop : ε} (h : round s = .ok (.inl s')) (fuel : ℕ) :
    iterate stop round (fuel + 1) s = iterate stop round fuel s' := by
  rw [iterate_succ, h]

theorem iterate_done {stop : ε} (h : round s = .ok (.inr a)) (fuel : ℕ) :
    iterate stop round (fuel + 1) s = .ok a := by
  rw [iterate_succ, h]

theorem iterate_of_stay {stop : ε} (h : round s = .ok (.inl s)) (fuel : ℕ) :
    iterate stop round fuel s = .error stop := by
  induction fuel with
  | zero => rfl
  | succ fuel ih => rw [iterate_more h, ih]

/-- With enough rounds, and only then, the loop has its result. -/
theorem delivers_iff_iterate (stop : ε) :
    Delivers round s a ↔ ∃ fuel, iterate stop round fuel s = .ok a := by
  constructor
  · intro h
    induction h with
    | done hround => exact ⟨1, by rw [iterate_succ, hround]⟩
    | more hround _ ih =>
      obtain ⟨fuel, hfuel⟩ := ih
      exact ⟨fuel + 1, by rw [iterate_succ, hround]; exact hfuel⟩
  · rintro ⟨fuel, h⟩
    induction fuel generalizing s with
    | zero => cases h
    | succ fuel ih =>
      rw [iterate] at h
      cases hround : round s with
      | error e =>
        rw [hround] at h
        cases h
      | ok next =>
        rw [hround] at h
        cases next with
        | inl s' => exact .more hround (ih h)
        | inr a' =>
          obtain rfl := Except.ok.inj h
          exact .done hround

theorem not_delivers_of_stay (h : round s = .ok (.inl s)) : ¬ Delivers round s a := by
  intro hdelivers
  generalize ht : s = t at hdelivers
  induction hdelivers with
  | done hround =>
    subst ht
    cases h.symm.trans hround
  | more hround _ ih =>
    subst ht
    exact ih (Sum.inl.inj (Except.ok.inj (h.symm.trans hround)))

/-- A loop ends exactly when every state that it visits is one where a round is good: where it
delivers a result, or comes nearer to the end. In the other states a round stops with an error or
leads to a state that no round changes. -/
theorem exists_delivers_iff (size : σ → ℕ) {Good : σ → Prop}
    (hgood : ∀ s, Good s → (∃ a, round s = .ok (.inr a)) ∨
      ∃ s', round s = .ok (.inl s') ∧ size s' < size s)
    (hbad : ∀ s, ¬ Good s → (∃ e, round s = .error e) ∨
      ∃ s', round s = .ok (.inl s') ∧ round s' = .ok (.inl s')) (s : σ) :
    (∃ a, Delivers round s a) ↔ ∀ s', Visits round s s' → Good s' := by
  constructor
  · rintro ⟨a, h⟩ s' hvisits
    by_contra hnot
    have h' := hvisits.delivers.mp h
    rcases hbad s' hnot with ⟨e, herror⟩ | ⟨t, hround, hstay⟩
    · cases h' with
      | done hround => cases herror.symm.trans hround
      | more hround _ => cases herror.symm.trans hround
    · exact not_delivers_of_stay hstay ((Visits.step hround).delivers.mp h')
  · intro h
    induction hsize : size s using Nat.strong_induction_on generalizing s with
    | _ n ih =>
      subst hsize
      rcases hgood s (h s .refl) with ⟨a, hround⟩ | ⟨s', hround, hlt⟩
      · exact ⟨a, .done hround⟩
      · obtain ⟨a, ha⟩ := ih (size s') hlt s' (fun t ht => h t ((Visits.step hround).trans ht)) rfl
        exact ⟨a, .more hround ha⟩

/-- One round of the inner loop, as a round of one loop. -/
def flatten (turn : σ → Except ε (σ ⊕ (σ ⊕ α))) (s : σ) : Except ε (σ ⊕ α) :=
  match turn s with
  | .error e => .error e
  | .ok (.inl s) => .ok (.inl s)
  | .ok (.inr next) => .ok next

variable {turn : σ → Except ε (σ ⊕ (σ ⊕ α))}

theorem flatten_again (h : turn s = .ok (.inl s')) : flatten turn s = .ok (.inl s') := by
  rw [flatten, h]

theorem flatten_left {next : σ ⊕ α} (h : turn s = .ok (.inr next)) :
    flatten turn s = .ok next := by
  rw [flatten, h]

/-- An inner loop that comes to an end is a part of the one loop. -/
theorem delivers_flatten_of_inner {next : σ ⊕ α} (h : Delivers turn s next)
    (hnext : next.elim (fun s' => Delivers (flatten turn) s' a) fun b => b = a) :
    Delivers (flatten turn) s a := by
  induction h with
  | @done s next hround =>
    cases next with
    | inl s' => exact .more (flatten_left hround) hnext
    | inr b =>
      obtain rfl : b = a := hnext
      exact .done (flatten_left hround)
  | more hround _ ih => exact .more (flatten_again hround) (ih hnext)

theorem delivers_flatten_of_outer {stop : ε} {limit : ℕ}
    (h : Delivers (iterate stop turn limit) s a) : Delivers (flatten turn) s a := by
  induction h with
  | done hround =>
    exact delivers_flatten_of_inner ((delivers_iff_iterate stop).mpr ⟨limit, hround⟩) rfl
  | more hround _ ih =>
    exact delivers_flatten_of_inner ((delivers_iff_iterate stop).mpr ⟨limit, hround⟩) ih

theorem iterate_nested_mono {stop : ε} {m n k : ℕ}
    (h : iterate stop (iterate stop turn m) k s = .ok a) (hle : m ≤ n) :
    iterate stop (iterate stop turn n) k s = .ok a := by
  induction k generalizing s with
  | zero => cases h
  | succ k ih =>
    rw [iterate_succ] at h ⊢
    cases hround : iterate stop turn m s with
    | error e =>
      rw [hround] at h
      cases h
    | ok next =>
      rw [hround] at h
      rw [iterate_mono hround hle]
      cases next with
      | inl s' => exact ih h
      | inr a' => exact h

theorem iterate_nested_again {stop : ε} {fuel : ℕ} (hturn : turn s = .ok (.inl s'))
    (h : iterate stop (iterate stop turn fuel) fuel s' = .ok a) :
    iterate stop (iterate stop turn (fuel + 1)) (fuel + 1) s = .ok a := by
  cases fuel with
  | zero => cases h
  | succ fuel =>
    have hfirst : iterate stop turn (fuel + 1 + 1) s = iterate stop turn (fuel + 1) s' := by
      rw [iterate_succ, hturn]
    rw [iterate_succ] at h
    rw [iterate_succ, hfirst]
    cases hinner : iterate stop turn (fuel + 1) s' with
    | error e =>
      rw [hinner] at h
      cases h
    | ok next =>
      rw [hinner] at h
      cases next with
      | inl t => exact iterate_nested_mono (iterate_mono h (Nat.le_succ _)) (Nat.le_succ _)
      | inr b => exact h

/-- A loop in a loop has the results of one loop. -/
theorem nested_iff_flatten (stop : ε) :
    (∃ fuel, iterate stop (iterate stop turn fuel) fuel s = .ok a) ↔ Delivers (flatten turn) s a := by
  constructor
  · rintro ⟨fuel, h⟩
    exact delivers_flatten_of_outer ((delivers_iff_iterate stop).mpr ⟨fuel, h⟩)
  · intro h
    induction h with
    | @done s a hround =>
      rw [flatten] at hround
      cases hturn : turn s with
      | error e =>
        rw [hturn] at hround
        cases hround
      | ok next =>
        rw [hturn] at hround
        cases next with
        | inl s' => cases hround
        | inr next =>
          obtain rfl := Except.ok.inj hround
          exact ⟨1, by rw [iterate_succ, iterate_succ, hturn]⟩
    | @more s s' a hround _ ih =>
      obtain ⟨fuel, hfuel⟩ := ih
      refine ⟨fuel + 1, ?_⟩
      rw [flatten] at hround
      cases hturn : turn s with
      | error e =>
        rw [hturn] at hround
        cases hround
      | ok next =>
        rw [hturn] at hround
        cases next with
        | inl t =>
          obtain rfl := Sum.inl.inj (Except.ok.inj hround)
          exact iterate_nested_again hturn hfuel
        | inr next =>
          obtain rfl := Except.ok.inj hround
          rw [iterate_succ, iterate_succ, hturn]
          exact iterate_nested_mono hfuel (Nat.le_succ _)

end Foundation
