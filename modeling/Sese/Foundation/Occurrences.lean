import Mathlib.Data.List.Infix
import Mathlib.Tactic

/-!
# Occurrences of a list in another one

`OccursAt pat text p` says that `pat` stands in `text` at the place `p`, and `first` is the first
such place. `Parts sep text parts` are the parts of a text between the leftmost occurrences of a
separator that do not overlap.
-/
namespace Foundation

variable {α : Type*}

/-- The list `pat` stands in `text` at the place `p`. -/
def OccursAt (pat text : List α) (p : ℕ) : Prop := pat <+: text.drop p

instance [DecidableEq α] (pat text : List α) (p : ℕ) : Decidable (OccursAt pat text p) :=
  inferInstanceAs (Decidable (_ <+: _))

def first [DecidableEq α] (pat : List α) : List α → Option ℕ
  | [] => if pat = [] then some 0 else none
  | a :: text => if pat <+: a :: text then some 0 else (first pat text).map (· + 1)

variable {pat text sep : List α} {p q : ℕ} {parts : List (List α)}

theorem OccursAt.le (h : OccursAt pat text p) (hpat : pat ≠ []) :
    p + pat.length ≤ text.length := by
  have hlen := h.length_le
  have hpos := List.length_pos_of_ne_nil hpat
  rw [List.length_drop] at hlen
  omega

theorem OccursAt.eq_append (h : OccursAt pat text p) :
    text = text.take p ++ (pat ++ text.drop (p + pat.length)) := by
  obtain ⟨rest, hrest⟩ := h
  have htail : text.drop (p + pat.length) = rest := by
    rw [← List.drop_drop, ← hrest, List.drop_left]
  rw [htail, hrest, List.take_append_drop]

theorem occursAt_iff : OccursAt pat text p ↔ ∀ i < pat.length, text[p + i]? = pat[i]? := by
  rw [OccursAt, List.prefix_iff_getElem?]
  constructor
  · intro h i hi
    rw [← List.getElem?_drop, h i hi, List.getElem?_eq_getElem hi]
  · intro h i hi
    rw [List.getElem?_drop, h i hi, List.getElem?_eq_getElem hi]

theorem occursAt_zero : OccursAt pat text 0 ↔ pat <+: text := by
  rw [OccursAt, List.drop_zero]

theorem occursAt_succ {a : α} : OccursAt pat (a :: text) (p + 1) ↔ OccursAt pat text p := Iff.rfl

section First

variable [DecidableEq α]

theorem first_eq_some_iff :
    first pat text = some p ↔ OccursAt pat text p ∧ ∀ q < p, ¬ OccursAt pat text q := by
  induction text generalizing p with
  | nil =>
    simp only [first, OccursAt, List.drop_nil, List.prefix_nil]
    by_cases h : pat = []
    · cases p with
      | zero => simp [h]
      | succ p => simpa [h] using ⟨0, Nat.zero_le p⟩
    · simp [h]
  | cons a text ih =>
    rw [first]
    split_ifs with h
    · cases p with
      | zero => simp [OccursAt, h]
      | succ p =>
        have hzero : OccursAt pat (a :: text) 0 := occursAt_zero.mpr h
        constructor
        · intro h'
          cases h'
        · intro h'
          exact absurd hzero (h'.2 0 (Nat.succ_pos p))
    · have hzero : ¬ OccursAt pat (a :: text) 0 := fun h' => h (occursAt_zero.mp h')
      cases p with
      | zero => simp [hzero]
      | succ p =>
        simp only [Option.map_eq_some_iff, Nat.succ_inj, exists_eq_right, occursAt_succ, ih,
          and_congr_right_iff]
        intro _
        constructor
        · intro hbefore q hq
          cases q with
          | zero => exact hzero
          | succ q => exact hbefore q (Nat.lt_of_succ_lt_succ hq)
        · intro hbefore q hq
          exact hbefore (q + 1) (Nat.succ_lt_succ hq)

theorem first_eq_none_iff : first pat text = none ↔ ∀ p, ¬ OccursAt pat text p := by
  constructor
  · intro h p hp
    classical
    have hfind : first pat text = some (Nat.find ⟨p, hp⟩) :=
      first_eq_some_iff.mpr ⟨Nat.find_spec _, fun q hq => Nat.find_min _ hq⟩
    rw [h] at hfind
    cases hfind
  · intro h
    cases hfirst : first pat text with
    | none => rfl
    | some p => exact absurd (first_eq_some_iff.mp hfirst).1 (h p)

theorem first_le (h : first pat text = some p) (hpat : pat ≠ []) :
    p + pat.length ≤ text.length :=
  (first_eq_some_iff.mp h).1.le hpat

/-- The parts of a text between the leftmost occurrences of a separator. -/
inductive Parts (sep : List α) : List α → List (List α) → Prop
  | last {text : List α} : first sep text = none → Parts sep text [text]
  | more {text : List α} {p : ℕ} {parts : List (List α)} : first sep text = some p →
      Parts sep (text.drop (p + sep.length)) parts → Parts sep text (text.take p :: parts)

theorem Parts.ne_nil (h : Parts sep text parts) : parts ≠ [] := by
  cases h with
  | last => exact List.cons_ne_nil _ _
  | more => exact List.cons_ne_nil _ _

theorem exists_parts (hsep : sep ≠ []) (text : List α) : ∃ parts, Parts sep text parts := by
  induction hlen : text.length using Nat.strong_induction_on generalizing text with
  | _ n ih =>
    cases hfirst : first sep text with
    | none => exact ⟨[text], .last hfirst⟩
    | some p =>
      have hpos := List.length_pos_of_ne_nil hsep
      have hle := first_le hfirst hsep
      obtain ⟨parts, hparts⟩ := ih (text.drop (p + sep.length)).length
        (by rw [List.length_drop]; omega) _ rfl
      exact ⟨_, .more hfirst hparts⟩

/-- Put together with the separator, the parts are the text. -/
theorem Parts.join (h : Parts sep text parts) : sep.intercalate parts = text := by
  induction h with
  | last => exact List.intercalate_singleton
  | @more text p parts hfirst hrest ih =>
    obtain ⟨part, parts, rfl⟩ := List.exists_cons_of_ne_nil hrest.ne_nil
    rw [List.intercalate_cons_cons, ih, List.append_assoc]
    exact (first_eq_some_iff.mp hfirst).1.eq_append.symm

end First
end Foundation
