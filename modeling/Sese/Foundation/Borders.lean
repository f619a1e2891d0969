import Mathlib.Data.Nat.Find
import Sese.Foundation.Occurrences

/-!
# Overlaps and borders

The end of a text overlaps the beginning of a pattern in some letters. The longest such overlap
is followed letter by letter: `step` looks for a shorter one with `fail` until the next letter
fits. This is right if `fail` gives the border of the beginnings of the pattern that are looked
up, that is, their longest overlap with themselves.
-/
namespace Foundation

variable {α : Type*}

/-- The last `b` letters of the text are the first `b` letters of the pattern. -/
def Overlap (pat t : List α) (b : ℕ) : Prop := b ≤ pat.length ∧ pat.take b <:+ t

def IsLongest (pat t : List α) (k : ℕ) : Prop := Overlap pat t k ∧ ∀ b, Overlap pat t b → b ≤ k

section Overlaps

variable {pat t : List α} {c : α} {b k : ℕ}

theorem overlap_zero (pat t : List α) : Overlap pat t 0 := ⟨Nat.zero_le _, by simp⟩

theorem Overlap.le (h : Overlap pat t b) : b ≤ t.length := by
  have hlen := h.2.length_le
  rwa [List.length_take, Nat.min_eq_left h.1] at hlen

theorem overlap_concat : Overlap pat (t ++ [c]) (b + 1) ↔ Overlap pat t b ∧ pat[b]? = some c := by
  by_cases hb : b < pat.length
  · have htake : pat.take (b + 1) = pat.take b ++ [pat[b]] := List.take_succ_eq_append_getElem hb
    rw [Overlap, Overlap, htake, List.suffix_concat_iff, List.getElem?_eq_getElem hb, Option.some_inj]
    constructor
    · rintro ⟨-, hnil | ⟨s, hs, hsuffix⟩⟩
      · exact absurd hnil (List.concat_ne_nil _ _)
      · obtain ⟨hs, hc⟩ := List.append_inj' hs rfl
        exact ⟨⟨hb.le, hs ▸ hsuffix⟩, List.singleton_inj.mp hc⟩
    · rintro ⟨⟨-, hsuffix⟩, hc⟩
      exact ⟨hb, .inr ⟨_, by rw [hc], hsuffix⟩⟩
  · constructor
    · rintro ⟨hle, -⟩
      omega
    · rintro ⟨-, hget⟩
      exact absurd (List.getElem?_eq_some_iff.mp hget).1 hb

theorem IsLongest.unique {k' : ℕ} (h : IsLongest pat t k) (h' : IsLongest pat t k') : k = k' :=
  le_antisymm (h'.2 k h.1) (h.2 k' h'.1)

theorem suffix_tail {xs ys : List α} (h : xs <:+ ys) (hlt : xs.length < ys.length) :
    xs <:+ ys.tail := by
  apply List.suffix_of_suffix_length_le h (List.tail_suffix ys)
  rw [List.length_tail]
  omega

/-- Below an overlap, the overlaps are those of the pattern with itself. -/
theorem Overlap.shorter_iff (h : Overlap pat t k) (hb : b < k) :
    Overlap pat t b ↔ Overlap (pat.take k) (pat.take k).tail b := by
  have hlenk : (pat.take k).length = k := by
    rw [List.length_take]
    exact Nat.min_eq_left h.1
  have hk := h.1
  have hlenb : (pat.take b).length = b := by
    rw [List.length_take]
    omega
  rw [Overlap, Overlap, List.take_take, Nat.min_eq_left hb.le, hlenk]
  constructor
  · rintro ⟨-, hsuffix⟩
    refine ⟨hb.le, suffix_tail (List.suffix_of_suffix_length_le hsuffix h.2 ?_) ?_⟩
    · omega
    · omega
  · rintro ⟨-, hsuffix⟩
    exact ⟨by omega, (hsuffix.trans (List.tail_suffix _)).trans h.2⟩

/-- Only so much of a pattern can overlap as the text is long. -/
theorem overlap_take_iff {i : ℕ} (ht : t.length ≤ i) : Overlap (pat.take i) t b ↔ Overlap pat t b := by
  constructor
  · intro h
    have hb := h.le.trans ht
    have hle := h.1.trans (List.length_take_le' _ _)
    refine ⟨hle, ?_⟩
    have hsuffix := h.2
    rwa [List.take_take, Nat.min_eq_left hb] at hsuffix
  · intro h
    have hb := h.le.trans ht
    refine ⟨?_, by rw [List.take_take, Nat.min_eq_left hb]; exact h.2⟩
    rw [List.length_take]
    exact Nat.le_min.mpr ⟨hb, h.1⟩

theorem overlap_length_iff {text : List α} {e : ℕ} (he : e ≤ text.length) :
    Overlap pat (text.take e) pat.length ↔ ∃ p, p + pat.length = e ∧ OccursAt pat text p := by
  rw [Overlap, List.take_length]
  constructor
  · rintro ⟨-, s, hs⟩
    have hlen := congrArg List.length hs
    rw [List.length_append, List.length_take, Nat.min_eq_left he] at hlen
    refine ⟨s.length, hlen, text.drop e, ?_⟩
    have htext : text = s ++ (pat ++ text.drop e) := by
      rw [← List.append_assoc, hs, List.take_append_drop]
    have hdrop := congrArg (List.drop s.length) htext
    rw [List.drop_left] at hdrop
    exact hdrop.symm
  · rintro ⟨p, rfl, h⟩
    refine ⟨le_rfl, text.take p, ?_⟩
    obtain ⟨rest, hrest⟩ := h
    rw [List.take_add, ← hrest, List.take_left]

end Overlaps

variable [DecidableEq α] {pat t : List α} {c : α} {b k : ℕ}

instance (pat t : List α) (b : ℕ) : Decidable (Overlap pat t b) :=
  inferInstanceAs (Decidable (_ ∧ _))

def border (l : List α) : ℕ := Nat.findGreatest (fun b => Overlap l l.tail b) l.length

theorem border_isLongest (l : List α) : IsLongest l l.tail (border l) := by
  constructor
  · exact Nat.findGreatest_spec (P := fun b => Overlap l l.tail b) (Nat.zero_le _) (overlap_zero _ _)
  · intro b hb
    exact Nat.le_findGreatest hb.1 hb

theorem border_lt {l : List α} (hl : l ≠ []) : border l < l.length := by
  have hle := (border_isLongest l).1.le
  have hpos := List.length_pos_of_ne_nil hl
  rw [List.length_tail] at hle
  omega

theorem border_take_lt (hk : 0 < k) (hle : k ≤ pat.length) : border (pat.take k) < k := by
  have hlen : (pat.take k).length = k := by
    rw [List.length_take]
    exact Nat.min_eq_left hle
  have hlt := border_lt (l := pat.take k) (List.ne_nil_of_length_pos (by omega))
  omega

theorem Overlap.border (h : Overlap pat t k) (hk : 0 < k) : Overlap pat t (border (pat.take k)) := by
  rw [h.shorter_iff (border_take_lt hk h.1)]
  exact (border_isLongest _).1

theorem Overlap.le_border (h : Overlap pat t k) (hb : b < k) (hoverlap : Overlap pat t b) :
    b ≤ Foundation.border (pat.take k) := (border_isLongest _).2 b ((h.shorter_iff hb).mp hoverlap)

/-- The letters of a list without repetition have no border. -/
theorem border_eq_zero {l : List α} (h : l.Nodup) : Foundation.border l = 0 := by
  by_contra hne
  obtain ⟨hle, hsuffix⟩ := (border_isLongest l).1
  cases l with
  | nil => exact hne rfl
  | cons a l =>
    obtain ⟨k, hk⟩ := Nat.exists_eq_succ_of_ne_zero hne
    rw [hk, List.take_succ_cons, List.tail_cons] at hsuffix
    exact (List.nodup_cons.mp h).1 (hsuffix.subset List.mem_cons_self)

/-- A shorter overlap that the letter continues, or none. -/
def fall (fail : ℕ → ℕ) (pat : List α) (c : α) (k : ℕ) : ℕ :=
  if k = 0 ∨ pat[k]? = some c then k
  else if fail k < k then fall fail pat c (fail k)
  else k
termination_by k

def step (fail : ℕ → ℕ) (pat : List α) (c : α) (k : ℕ) : ℕ :=
  if pat[fall fail pat c k]? = some c then fall fail pat c k + 1 else fall fail pat c k

variable {fail : ℕ → ℕ}

theorem fall_le (fail : ℕ → ℕ) (pat : List α) (c : α) (k : ℕ) : fall fail pat c k ≤ k := by
  fun_induction fall fail pat c k with
  | case1 => exact le_rfl
  | case2 k hne hlt ih => exact ih.trans hlt.le
  | case3 => exact le_rfl

theorem step_le (fail : ℕ → ℕ) (pat : List α) (c : α) (k : ℕ) : step fail pat c k ≤ k + 1 := by
  have hle := fall_le fail pat c k
  unfold step
  split_ifs
  · omega
  · omega

/-- `fail` is right where it is looked up: at an overlap with the text that the letter does not
continue, and no longer one either. -/
def RightAt (fail : ℕ → ℕ) (pat t : List α) (c : α) : Prop :=
  ∀ b, 0 < b → b < pat.length → Overlap pat t b →
    (∀ k, b ≤ k → k < pat.length → Overlap pat t k → pat[k]? ≠ some c) →
      fail b = border (pat.take b)

/-- The overlap that is found, and that none of the longer ones is continued. -/
theorem fall_spec (hright : RightAt fail pat t c) (hk : k < pat.length) (hoverlap : Overlap pat t k)
    (hlonger : ∀ b, k < b → b < pat.length → Overlap pat t b → pat[b]? ≠ some c) :
    Overlap pat t (fall fail pat c k) ∧
      (fall fail pat c k = 0 ∨ pat[fall fail pat c k]? = some c) ∧
      ∀ b, fall fail pat c k < b → b < pat.length → Overlap pat t b → pat[b]? ≠ some c := by
  induction k using Nat.strong_induction_on with
  | _ k ih =>
    unfold fall
    by_cases hstop : k = 0 ∨ pat[k]? = some c
    · rw [if_pos hstop]
      exact ⟨hoverlap, hstop, hlonger⟩
    · obtain ⟨hzero, hne⟩ := not_or.mp hstop
      have hpos := Nat.pos_of_ne_zero hzero
      have hfrom : ∀ b, k ≤ b → b < pat.length → Overlap pat t b → pat[b]? ≠ some c := by
        intro b hb hlt hb'
        rcases Nat.eq_or_lt_of_le hb with rfl | hb
        · exact hne
        · exact hlonger b hb hlt hb'
      have hfail := hright k hpos hk hoverlap hfrom
      have hlt := border_take_lt hpos hk.le
      rw [if_neg hstop, hfail, if_pos hlt]
      apply ih _ hlt (by omega) (hoverlap.border hpos)
      intro b hb hblt hb'
      by_cases hbk : b < k
      · exact absurd (hoverlap.le_border hbk hb') (by omega)
      · exact hfrom b (not_lt.mp hbk) hblt hb'

/-- From the longest overlap that is not the whole pattern, the next longest one. -/
theorem step_isLongest (hright : RightAt fail pat t c) (hk : k < pat.length)
    (hoverlap : Overlap pat t k) (hlongest : ∀ b, b < pat.length → Overlap pat t b → b ≤ k) :
    IsLongest pat (t ++ [c]) (step fail pat c k) := by
  obtain ⟨hfall, hstop, hlonger⟩ := fall_spec hright hk hoverlap fun b hb hlt hb' =>
    absurd (hlongest b hlt hb') (by omega)
  have hbound : ∀ b, Overlap pat (t ++ [c]) (b + 1) → b ≤ fall fail pat c k ∧ pat[b]? = some c := by
    intro b hb
    obtain ⟨hb', hc⟩ := overlap_concat.mp hb
    refine ⟨?_, hc⟩
    by_contra hlt
    exact hlonger b (not_le.mp hlt) (List.getElem?_eq_some_iff.mp hc).1 hb' hc
  unfold step
  split_ifs with hnext
  · refine ⟨overlap_concat.mpr ⟨hfall, hnext⟩, ?_⟩
    intro b hb
    cases b with
    | zero => exact Nat.zero_le _
    | succ b => exact Nat.succ_le_succ (hbound b hb).1
  · have hzero : fall fail pat c k = 0 := hstop.resolve_right hnext
    rw [hzero] at hnext hbound ⊢
    refine ⟨overlap_zero _ _, ?_⟩
    intro b hb
    cases b with
    | zero => exact le_rfl
    | succ b =>
      obtain ⟨hle, hc⟩ := hbound b hb
      rw [Nat.le_zero.mp hle] at hc
      exact absurd hc hnext

end Foundation
