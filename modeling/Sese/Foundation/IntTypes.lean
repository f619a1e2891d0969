import Sese.Foundation.Outcome
import Mathlib.Tactic

/-!
# Integer types

The integer types of 8 to 64 bits. A value of a type is an integer between its least and its
greatest one; arithmetic on a type with less than 32 bits is done with 32 bits, and a signed
result that has no room is an error. `assign` is the conversion of such a result back to the
type.
-/
namespace Foundation

structure IntType where
  bits : ℕ
  signed : Bool
  bits_mem : bits = 8 ∨ bits = 16 ∨ bits = 32 ∨ bits = 64

namespace IntType

def least (t : IntType) : ℤ := if t.signed then -2 ^ (t.bits - 1) else 0

def greatest (t : IntType) : ℤ := if t.signed then 2 ^ (t.bits - 1) - 1 else 2 ^ t.bits - 1

def Fits (t : IntType) (v : ℤ) : Prop := t.least ≤ v ∧ v ≤ t.greatest

instance (t : IntType) (v : ℤ) : Decidable (t.Fits v) := inferInstanceAs (Decidable (_ ∧ _))

/-- The value of the type that is the integer, up to multiples of `2 ^ bits`. -/
def convert (t : IntType) (v : ℤ) : ℤ := if t.signed then Int.bmod v (2 ^ t.bits) else v % 2 ^ t.bits

def promoted (t : IntType) : IntType := if t.bits < 32 then ⟨32, true, by decide⟩ else t

/-- The result of an operation is assigned to a variable of the type; `overflow` is the error for
a signed result without room. -/
def assign {ε : Type} (overflow : ε) (t : IntType) (v : ℤ) : Except ε ℤ :=
  if t.promoted.signed ∧ ¬ t.promoted.Fits v then .error overflow else .ok (t.convert v)

def IsMin (t : IntType) (v : ℤ) : Prop := t.signed ∧ v = t.least

instance (t : IntType) (v : ℤ) : Decidable (t.IsMin v) := inferInstanceAs (Decidable (_ ∧ _))

variable {ε : Type} {overflow : ε} {t : IntType} {v : ℤ}

theorem least_nonpos (t : IntType) : t.least ≤ 0 := by
  unfold least
  split_ifs <;> simp

theorem fits_zero (t : IntType) : t.Fits 0 := by
  refine ⟨t.least_nonpos, ?_⟩
  unfold greatest
  split_ifs
  · exact Int.sub_nonneg_of_le (one_le_pow₀ (by decide))
  · exact Int.sub_nonneg_of_le (one_le_pow₀ (by decide))

theorem Fits.signed_of_neg (h : t.Fits v) (hneg : v < 0) : t.signed := by
  by_contra hsigned
  have hle := h.1
  rw [least, if_neg hsigned] at hle
  omega

theorem convert_of_fits (h : t.Fits v) : t.convert v = v := by
  obtain ⟨bits, signed, hbits⟩ := t
  cases signed with
  | true =>
    simp only [Fits, least, greatest, if_true] at h
    simp only [convert, if_true]
    have hpow : (2 : ℤ) ^ bits = 2 * 2 ^ (bits - 1) := by
      rcases hbits with rfl | rfl | rfl | rfl <;> norm_num
    apply Int.bmod_eq_of_le
    · push_cast
      omega
    · push_cast
      omega
  | false =>
    simp only [Fits, least, greatest, Bool.false_eq_true, if_false] at h
    simp only [convert, Bool.false_eq_true, if_false]
    exact Int.emod_eq_of_lt h.1 (by omega)

theorem promoted_fits (h : t.Fits v) : t.promoted.Fits v := by
  obtain ⟨bits, signed, hbits⟩ := t
  unfold promoted
  split_ifs with hlt
  · rcases hbits with rfl | rfl | rfl | rfl
    all_goals cases signed <;> simp [Fits, least, greatest] at h hlt ⊢ <;> omega
  · exact h

theorem assign_of_fits (overflow : ε) (h : t.Fits v) : t.assign overflow v = .ok v := by
  have hp := promoted_fits h
  rw [assign, if_neg (by simp [hp]), convert_of_fits h]

theorem fits_neg (h : t.Fits v) (hneg : v < 0) (hmin : ¬ t.IsMin v) : t.Fits (-v) := by
  have hsigned := h.signed_of_neg hneg
  have hne : v ≠ t.least := fun heq => hmin ⟨hsigned, heq⟩
  simp only [Fits, least, greatest, hsigned, if_true] at h hne ⊢
  constructor
  · have := (fits_zero t).1
    simp only [least, hsigned, if_true] at this
    omega
  · omega

theorem assign_neg_min (h : t.IsMin v) :
    t.assign overflow (-v) = if t.bits < 32 then .ok v else .error overflow := by
  obtain ⟨bits, signed, hbits⟩ := t
  obtain ⟨hsigned, rfl⟩ := h
  simp only at hsigned
  subst hsigned
  rcases hbits with rfl | rfl | rfl | rfl
  · simp [assign, promoted, Fits, least, greatest, convert]
  · simp [assign, promoted, Fits, least, greatest, convert]
  · simp [assign, promoted, Fits, least, greatest]
  · simp [assign, promoted, Fits, least, greatest]

theorem IsMin.neg (h : t.IsMin v) : v ≤ -128 := by
  obtain ⟨bits, signed, hbits⟩ := t
  obtain ⟨hsigned, rfl⟩ := h
  simp only at hsigned
  subst hsigned
  rcases hbits with rfl | rfl | rfl | rfl <;> simp [least]

end IntType
end Foundation
