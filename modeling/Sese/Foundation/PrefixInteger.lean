import Mathlib.Tactic

/-!
# Prefix integers

A number is written into the low `n` bits of an octet whose other bits mean something else. A number
that these bits do not hold is written as all ones there, and what is left of it follows in groups
of seven bits, the least significant first. The high bit of a group says that another one follows.
-/
namespace Foundation
namespace PrefixInteger

def groups (v : ℕ) : List UInt8 :=
  if v < 128 then [UInt8.ofNat v] else UInt8.ofNat (v % 128 + 128) :: groups (v / 128)
termination_by v
decreasing_by omega

/-- A number with an `n` bit prefix; `pattern` is what the other bits of the first octet stand for. -/
def represent (pattern n v : ℕ) : List UInt8 :=
  if v < 2 ^ n - 1 then [UInt8.ofNat (pattern + v)]
  else UInt8.ofNat (pattern + (2 ^ n - 1)) :: groups (v - (2 ^ n - 1))

/-- The octets up to the first one without the high bit, or all of them. -/
def run : List UInt8 → List UInt8
  | [] => []
  | b :: bs => if b.toNat < 128 then [b] else b :: run bs

def Ends (bs : List UInt8) : Prop := ∃ b ∈ bs, b.toNat < 128

instance (bs : List UInt8) : Decidable (Ends bs) := inferInstanceAs (Decidable (∃ b ∈ bs, _))

def value : List UInt8 → ℕ
  | [] => 0
  | b :: bs => b.toNat % 128 + 128 * value bs

/-- The number that begins with the octet `first` and the number of octets it takes of those behind
it, if it comes to an end there. -/
def denote (n : ℕ) (first : UInt8) (rest : List UInt8) : Option (ℕ × ℕ) :=
  if first.toNat % 2 ^ n ≠ 2 ^ n - 1 then some (first.toNat % 2 ^ n, 0)
  else if Ends rest then some (2 ^ n - 1 + value (run rest), (run rest).length)
  else none

variable {b : UInt8} {bs rest : List UInt8}

@[simp] theorem run_nil : run [] = [] := by simp [run]

theorem run_last (h : b.toNat < 128) : run (b :: bs) = [b] := by simp [run, h]

theorem run_more (h : ¬b.toNat < 128) : run (b :: bs) = b :: run bs := by simp [run, h]

@[simp] theorem not_ends_nil : ¬Ends [] := by simp [Ends]

theorem ends_last (h : b.toNat < 128) : Ends (b :: bs) := ⟨b, List.mem_cons_self, h⟩

theorem ends_more (h : ¬b.toNat < 128) : Ends (b :: bs) ↔ Ends bs := by simp [Ends, h]

theorem run_begins (bs : List UInt8) : run bs <+: bs := by
  induction bs with
  | nil => simp
  | cons b bs ih =>
    by_cases h : b.toNat < 128
    · simp [run_last h]
    · simpa [run_more h] using ih

theorem groups_last {v : ℕ} (h : v < 128) : groups v = [UInt8.ofNat v] := by
  unfold groups
  simp [h]

theorem groups_more {v : ℕ} (h : ¬v < 128) :
    groups v = UInt8.ofNat (v % 128 + 128) :: groups (v / 128) := by
  conv_lhs => unfold groups
  simp [h]

theorem toNat_ofNat_of_lt {n : ℕ} (h : n < 256) : (UInt8.ofNat n).toNat = n := by
  simp [Nat.mod_eq_of_lt h]

theorem run_groups (v : ℕ) (rest : List UInt8) :
    run (groups v ++ rest) = groups v ∧ Ends (groups v ++ rest) := by
  induction v using Nat.strongRecOn with
  | ind v ih =>
    by_cases h : v < 128
    · have hlast : (UInt8.ofNat v).toNat < 128 := by rwa [toNat_ofNat_of_lt (by omega)]
      simp [groups_last h, run_last hlast, ends_last hlast]
    · have hmore : ¬(UInt8.ofNat (v % 128 + 128)).toNat < 128 := by
        rw [toNat_ofNat_of_lt (by omega)]
        omega
      obtain ⟨hrun, hends⟩ := ih (v / 128) (by omega)
      rw [groups_more h, List.cons_append, run_more hmore, ends_more hmore, hrun]
      exact ⟨rfl, hends⟩

theorem value_groups (v : ℕ) : value (groups v) = v := by
  induction v using Nat.strongRecOn with
  | ind v ih =>
    by_cases h : v < 128
    · simp only [groups_last h, value, toNat_ofNat_of_lt (by omega : v < 256)]
      omega
    · simp only [groups_more h, value, ih (v / 128) (by omega),
        toNat_ofNat_of_lt (by omega : v % 128 + 128 < 256)]
      omega

theorem length_groups_le {v k : ℕ} (h : v < 128 ^ (k + 1)) : (groups v).length ≤ k + 1 := by
  induction k generalizing v with
  | zero => simp [groups_last (by simpa using h : v < 128)]
  | succ k ih =>
    by_cases hlast : v < 128
    · simp [groups_last hlast]
    · have hrest : v / 128 < 128 ^ (k + 1) := by
        apply Nat.div_lt_of_lt_mul
        rwa [pow_succ, mul_comm] at h
      simpa [groups_more hlast] using ih hrest

theorem length_represent_le {pattern n v k : ℕ} (h : v < 128 ^ (k + 1)) :
    (represent pattern n v).length ≤ k + 2 := by
  unfold represent
  split_ifs
  · simp
  · have hrest : (groups (v - (2 ^ n - 1))).length ≤ k + 1 := length_groups_le (by omega)
    simpa using hrest

theorem denote_represent {pattern n : ℕ} (hmod : pattern % 2 ^ n = 0)
    (hfit : pattern + 2 ^ n ≤ 256) (v : ℕ) (rest : List UInt8) :
    ∃ i < 2 ^ n, ∃ out, represent pattern n v = UInt8.ofNat (pattern + i) :: out ∧
      denote n (UInt8.ofNat (pattern + i)) (out ++ rest) = some (v, out.length) := by
  have hpos : 0 < 2 ^ n := by positivity
  have hfirst : ∀ i < 2 ^ n, (UInt8.ofNat (pattern + i)).toNat % 2 ^ n = i := by
    intro i hi
    rw [toNat_ofNat_of_lt (by omega), Nat.add_mod, hmod, zero_add, Nat.mod_mod,
      Nat.mod_eq_of_lt hi]
  unfold represent denote
  split_ifs with hshort
  · have hne : v ≠ 2 ^ n - 1 := by omega
    refine ⟨v, by omega, [], rfl, ?_⟩
    simp only [hfirst v (by omega), ne_eq, hne, not_false_eq_true, if_true, List.length_nil]
  · obtain ⟨hrun, hends⟩ := run_groups (v - (2 ^ n - 1)) rest
    have hvalue : 2 ^ n - 1 + (v - (2 ^ n - 1)) = v := by omega
    refine ⟨2 ^ n - 1, by omega, _, rfl, ?_⟩
    simp only [hfirst (2 ^ n - 1) (by omega), ne_eq, not_true, if_false, hends, if_true, hrun,
      value_groups, hvalue]

/-- The octets behind `first` are those of the number `v`, no more and no less. -/
def Spells (n : ℕ) (first : UInt8) (cont : List UInt8) (v : ℕ) : Prop :=
  denote n first cont = some (v, cont.length)

instance {n : ℕ} {first : UInt8} {cont : List UInt8} {v : ℕ} : Decidable (Spells n first cont v) :=
  inferInstanceAs (Decidable (_ = _))

theorem run_append (h : Ends bs) (rest : List UInt8) : run (bs ++ rest) = run bs := by
  induction bs with
  | nil => simp at h
  | cons b bs ih =>
    by_cases hlast : b.toNat < 128
    · simp [run_last hlast]
    · simp [run_more hlast, ih ((ends_more hlast).mp h)]

theorem run_run (bs : List UInt8) : run (run bs) = run bs := by
  induction bs with
  | nil => simp
  | cons b bs ih =>
    by_cases hlast : b.toNat < 128
    · simp [run_last hlast]
    · simp [run_more hlast, ih]

theorem ends_run (h : Ends bs) : Ends (run bs) := by
  induction bs with
  | nil => simp at h
  | cons b bs ih =>
    by_cases hlast : b.toNat < 128
    · simpa [run_last hlast] using ends_last hlast
    · simpa [run_more hlast, ends_more hlast] using ih ((ends_more hlast).mp h)

theorem run_append_drop (bs : List UInt8) : run bs ++ bs.drop (run bs).length = bs := by
  obtain ⟨rest, hrest⟩ := run_begins bs
  conv_lhs => rw [← hrest]
  conv_rhs => rw [← hrest]
  have hrun : run (run bs ++ rest) = run bs := by rw [hrest]
  simp [hrun]

/-- A number within the prefix, or a full prefix with the groups behind it. -/
theorem spells_iff {n v : ℕ} {first : UInt8} {cont : List UInt8} :
    Spells n first cont v ↔
      first.toNat % 2 ^ n ≠ 2 ^ n - 1 ∧ cont = [] ∧ v = first.toNat % 2 ^ n ∨
      first.toNat % 2 ^ n = 2 ^ n - 1 ∧ Ends cont ∧ run cont = cont ∧ v = 2 ^ n - 1 + value cont := by
  unfold Spells denote
  by_cases hfull : first.toNat % 2 ^ n = 2 ^ n - 1
  · simp only [hfull, ne_eq, not_true, if_false, false_and, true_and, false_or]
    by_cases hends : Ends cont
    · simp only [hends, if_true, Option.some.injEq, Prod.mk.injEq, true_and]
      constructor
      · rintro ⟨hvalue, hlength⟩
        have hrun := (run_begins cont).eq_of_length hlength
        rw [hrun] at hvalue
        exact ⟨hrun, hvalue.symm⟩
      · rintro ⟨hrun, rfl⟩
        simp [hrun]
    · simp [hends]
  · simp only [hfull, ne_eq, not_false_eq_true, if_true, Option.some.injEq, Prod.mk.injEq, true_and,
      false_and, or_false]
    constructor
    · rintro ⟨hvalue, hlength⟩
      exact ⟨List.length_eq_zero_iff.mp hlength.symm, hvalue.symm⟩
    · rintro ⟨rfl, rfl⟩
      simp

/-- An integer says itself where it ends. -/
theorem Spells.unique {n v w : ℕ} {first : UInt8} {a b x y : List UInt8} (ha : Spells n first a v)
    (hb : Spells n first b w) (h : a ++ x = b ++ y) : a = b ∧ v = w := by
  rcases spells_iff.mp ha with ⟨hshort, rfl, rfl⟩ | ⟨hfull, hends, hrun, rfl⟩ <;>
    rcases spells_iff.mp hb with ⟨hshort', rfl, rfl⟩ | ⟨hfull', hends', hrun', rfl⟩
  · simp
  · exact absurd hfull' hshort
  · exact absurd hfull hshort'
  · have hsame : a = b := by
      rw [← hrun, ← hrun', ← run_append hends x, ← run_append hends' y, h]
    simp [hsame]

end PrefixInteger
end Foundation
