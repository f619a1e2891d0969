import Mathlib.Init

/-!
# Computations that may stop

Rules for `Except`: a computation that returns is unfolded to its result, and a
sequence of two computations returns exactly when both of them do. `Avoids e Q` is a
postcondition that also excludes one reason to stop.
-/
namespace Foundation

universe u v
variable {ε : Type u} {α β : Type v}

@[simp] theorem ok_bind (a : α) (f : α → Except ε β) : (Except.ok a >>= f) = f a := rfl

@[simp] theorem error_bind (e : ε) (f : α → Except ε β) : (Except.error e >>= f) = .error e := rfl

@[simp] theorem pure_eq_ok (a : α) : (pure a : Except ε α) = .ok a := rfl

theorem bind_eq_ok {x : Except ε α} {f : α → Except ε β} {b : β} :
    x >>= f = .ok b ↔ ∃ a, x = .ok a ∧ f a = .ok b := by
  cases x with
  | error e => simp
  | ok a => simp

def Returns (x : Except ε α) : Prop := ∃ a, x = .ok a

theorem returns_ok (a : α) : Returns (.ok a : Except ε α) := ⟨a, rfl⟩

theorem not_returns_error (e : ε) : ¬ Returns (.error e : Except ε α) := by
  rintro ⟨a, h⟩
  cases h

theorem returns_bind {x : Except ε α} {f : α → Except ε β} :
    Returns (x >>= f) ↔ ∃ a, x = .ok a ∧ Returns (f a) := by
  cases x with
  | error e => simp [Returns]
  | ok a => simp

/-- The computation does not stop for the reason `e`, and what it returns has the
property `Q`. -/
def Avoids (e : ε) (Q : α → Prop) : Except ε α → Prop
  | .ok a => Q a
  | .error e' => e' ≠ e

variable {e : ε} {P Q : α → Prop} {R : β → Prop} {x : Except ε α} {f : α → Except ε β}

theorem Avoids.ne (h : Avoids e Q x) : x ≠ .error e := by
  rintro rfl
  exact h rfl

theorem Avoids.result {a : α} (h : Avoids e Q x) (hx : x = .ok a) : Q a := by
  rw [hx] at h
  exact h

theorem Avoids.imp (h : Avoids e P x) (himp : ∀ a, x = .ok a → P a → Q a) : Avoids e Q x := by
  cases x with
  | error e' => exact h
  | ok a => exact himp a rfl h

theorem Avoids.bind (h : Avoids e P x) (hf : ∀ a, x = .ok a → P a → Avoids e R (f a)) :
    Avoids e R (x >>= f) := by
  cases x with
  | error e' => exact h
  | ok a => exact hf a rfl h

end Foundation
