import Mathlib.Data.Prod.Lex
import Mathlib.Tactic

/-!
# The comparison of versions

The six comparison operators of `Version`, each a condition on the four parts. They are
compared with the lexicographic order of the parts.
-/
namespace Sese

structure Version where
  major : UInt16
  minor : UInt16
  patch : UInt16
  revision : UInt16
  deriving DecidableEq, Repr

namespace Version

/-- `operator==`. -/
def eq (v other : Version) : Bool :=
  v.major == other.major && v.minor == other.minor && v.patch == other.patch &&
    v.revision == other.revision

/-- `operator<`. -/
def lt (v other : Version) : Bool :=
  v.major < other.major || v.minor < other.minor || v.patch < other.patch ||
    v.revision < other.revision

/-- `operator>`. -/
def gt (v other : Version) : Bool :=
  v.major > other.major || v.minor > other.minor || v.patch > other.patch ||
    v.revision > other.revision

/-- `operator<=`. -/
def le (v other : Version) : Bool :=
  v.major ≤ other.major && v.minor ≤ other.minor && v.patch ≤ other.patch &&
    v.revision ≤ other.revision

/-- `operator>=`. -/
def ge (v other : Version) : Bool :=
  v.major ≥ other.major && v.minor ≥ other.minor && v.patch ≥ other.patch &&
    v.revision ≥ other.revision

def parts (v : Version) : ℕ ×ₗ ℕ ×ₗ ℕ ×ₗ ℕ :=
  toLex (v.major.toNat, toLex (v.minor.toNat, toLex (v.patch.toNat, v.revision.toNat)))

/-- No part of the one is greater than that of the other. -/
def Below (a b : Version) : Prop :=
  a.major.toNat ≤ b.major.toNat ∧ a.minor.toNat ≤ b.minor.toNat ∧
    a.patch.toNat ≤ b.patch.toNat ∧ a.revision.toNat ≤ b.revision.toNat

instance : DecidableRel Below := fun _ _ => inferInstanceAs (Decidable (_ ∧ _))

variable {a b c : Version}

theorem eq_iff : a.eq b ↔ a = b := by
  obtain ⟨a₁, a₂, a₃, a₄⟩ := a
  obtain ⟨b₁, b₂, b₃, b₄⟩ := b
  simp [eq, and_assoc]

theorem le_iff : a.le b ↔ a.Below b := by
  simp [le, Below, UInt16.le_iff_toNat_le, and_assoc]

theorem ge_iff : a.ge b ↔ b.Below a := by
  simp [ge, Below, UInt16.le_iff_toNat_le, and_assoc]

theorem lt_iff : a.lt b ↔ ¬ b.Below a := by
  simp only [lt, Below, UInt16.lt_iff_toNat_lt, Bool.or_eq_true, decide_eq_true_eq]
  omega

theorem gt_iff : a.gt b ↔ ¬ a.Below b := by
  simp only [gt, Below, gt_iff_lt, UInt16.lt_iff_toNat_lt, Bool.or_eq_true, decide_eq_true_eq]
  omega

theorem parts_lt_iff : a.parts < b.parts ↔
    a.major.toNat < b.major.toNat ∨ a.major.toNat = b.major.toNat ∧
      (a.minor.toNat < b.minor.toNat ∨ a.minor.toNat = b.minor.toNat ∧
        (a.patch.toNat < b.patch.toNat ∨ a.patch.toNat = b.patch.toNat ∧
          a.revision.toNat < b.revision.toNat)) := by
  simp [parts, Prod.Lex.toLex_lt_toLex]

theorem Below.antisymm (h : a.Below b) (h' : b.Below a) : a = b := by
  obtain ⟨a₁, a₂, a₃, a₄⟩ := a
  obtain ⟨b₁, b₂, b₃, b₄⟩ := b
  simp only [Below] at h h'
  simp only [mk.injEq, ← UInt16.toNat_inj]
  omega

theorem Below.trans (h : a.Below b) (h' : b.Below c) : a.Below c := by
  simp only [Below] at h h' ⊢
  omega

theorem below_refl (a : Version) : a.Below a := by
  simp [Below]

/-- The operators agree with the lexicographic order of the versions. -/
structure Ordered (a b c : Version) : Prop where
  lt_iff : a.lt b ↔ a.parts < b.parts
  one : (a.lt b ∧ ¬ a.eq b ∧ ¬ a.gt b) ∨ (¬ a.lt b ∧ a.eq b ∧ ¬ a.gt b) ∨
    (¬ a.lt b ∧ ¬ a.eq b ∧ a.gt b)
  le_iff : a.le b ↔ a.lt b ∨ a.eq b
  ge_iff : a.ge b ↔ b.le a
  trans : a.lt b → b.lt c → a.lt c

/-- Where no part of the one is greater, the order of the parts is not the other way round. -/
theorem Below.not_parts_lt (h : a.Below b) : ¬ b.parts < a.parts := by
  rw [parts_lt_iff]
  simp only [Below] at h
  omega

theorem Below.parts_lt (h : a.Below b) (hne : ¬ b.Below a) : a.parts < b.parts := by
  rw [parts_lt_iff]
  simp only [Below] at h hne
  omega

/-- The operators are those of one order exactly for the versions whose parts do not differ in
both directions. -/
theorem ordered_iff (a b c : Version) : Ordered a b c ↔ a.Below b ∨ b.Below a := by
  constructor
  · intro h
    by_contra hnot
    rw [not_or] at hnot
    have hlt : a.lt b := lt_iff.mpr hnot.2
    have hgt : a.gt b := gt_iff.mpr hnot.1
    rcases h.one with ⟨-, -, h'⟩ | ⟨h', -, -⟩ | ⟨h', -, -⟩
    · exact h' hgt
    · exact h' hlt
    · exact h' hlt
  · intro h
    constructor
    · rw [lt_iff]
      rcases h with h | h
      · exact ⟨h.parts_lt, fun hlt hba => hba.not_parts_lt hlt⟩
      · exact ⟨fun hnot => absurd h hnot, fun hlt => absurd hlt h.not_parts_lt⟩
    · rw [lt_iff, gt_iff, eq_iff]
      by_cases hab : a.Below b
      · by_cases hba : b.Below a
        · exact .inr (.inl ⟨not_not.mpr hba, hab.antisymm hba, not_not.mpr hab⟩)
        · exact .inl ⟨hba, fun heq => hba (heq ▸ below_refl _), not_not.mpr hab⟩
      · have hba := h.resolve_left hab
        exact .inr (.inr ⟨not_not.mpr hba, fun heq => hab (heq ▸ below_refl _), hab⟩)
    · rw [le_iff, lt_iff, eq_iff]
      constructor
      · intro hab
        by_cases hba : b.Below a
        · exact .inr (hab.antisymm hba)
        · exact .inl hba
      · rintro (hba | rfl)
        · exact h.resolve_right hba
        · exact below_refl _
    · rw [ge_iff, le_iff]
    · rw [lt_iff, lt_iff, lt_iff]
      intro hba hcb hca
      rcases h with h | h
      · exact hcb (hca.trans h)
      · exact hba h

/-- Each of the versions 1.0.0.0 and 0.1.0.0 is smaller than the other. -/
theorem not_ordered_1_0 : ¬ Ordered ⟨1, 0, 0, 0⟩ ⟨0, 1, 0, 0⟩ ⟨0, 0, 0, 0⟩ := by
  intro h
  have hone := h.one
  revert hone
  decide

end Version
end Sese
