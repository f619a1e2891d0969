import Sese.Foundation.Outcome
import Sese.Text.SString

/-!
# Sizes and indices

The conversions between `int` and `size_t`, the arithmetic of `int`, and reading an array at an
`int`.
-/
namespace Sese.Text

/-- `static_cast<size_t>` of an `int`. -/
def toSize (i : ℤ) : ℕ := (i % sizeBound).toNat

/-- `static_cast<int>` of a `size_t`. -/
def toInt (n : ℕ) : ℤ := Int.bmod n (2 ^ 32)

/-- A result of the arithmetic of `int`. -/
def checkInt (i : ℤ) : Except Fault ℤ :=
  if -2 ^ 31 ≤ i ∧ i < 2 ^ 31 then .ok i else .error .intOverflow

/-- An element of an array. -/
def readAt {α : Type} (xs : List α) (i : ℤ) : Except Fault α :=
  if 0 ≤ i then
    match xs[i.toNat]? with
    | some x => .ok x
    | none => .error .overread
  else .error .overread

variable {α : Type} {n : ℕ} {i : ℤ}

theorem toInt_of_lt (h : n < 2 ^ 31) : toInt n = n := by
  apply Int.bmod_eq_of_le
  · push_cast
    omega
  · push_cast
    omega

theorem toInt_lt (n : ℕ) : toInt n < 2 ^ 31 := Int.bmod_lt (by norm_num)

theorem le_toInt (n : ℕ) : -2 ^ 31 ≤ toInt n := Int.le_bmod (by norm_num)

theorem toInt_le (n : ℕ) : toInt n ≤ n := by
  unfold toInt
  rw [Int.bmod_eq_emod]
  omega

theorem toSize_natCast (h : n < sizeBound) : toSize n = n := by
  unfold toSize
  unfold sizeBound at h ⊢
  omega

theorem checkInt_of_lt (hlow : -2 ^ 31 ≤ i) (h : i < 2 ^ 31) : checkInt i = .ok i := if_pos ⟨hlow, h⟩

theorem checkInt_ok {k : ℤ} (h : checkInt i = .ok k) : k = i ∧ -2 ^ 31 ≤ i ∧ i < 2 ^ 31 := by
  unfold checkInt at h
  split_ifs at h with hrange
  exact ⟨(Except.ok.inj h).symm, hrange⟩

theorem readAt_natCast (xs : List α) {x : α} (h : xs[n]? = some x) : readAt xs n = .ok x := by
  rw [readAt, if_pos (Int.natCast_nonneg n), Int.toNat_natCast, h]

end Sese.Text
