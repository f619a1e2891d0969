import Sese.Foundation.Occurrences
import Sese.Foundation.Orbit

/-!
# Searching by alignments

A pattern is laid under a text and compared from its end on; the first letter of the text that
differs tells how far the pattern is moved, counted from the place of that letter. `jump` is one
such move, between the ends of two alignments. When the moves of a pattern are sound, they lead
to its first occurrence.
-/
namespace Foundation

variable {α : Type*}

variable {shift : α → ℕ} {pat text xs ys : List α} {e e' k p : ℕ}

theorem getElem?_reverse_take (hk : k < e) (he : e ≤ text.length) :
    (text.take e).reverse[k]? = text[e - 1 - k]? := by
  have hlen : (text.take e).length = e := by
    rw [List.length_take]
    exact Nat.min_eq_left he
  rw [List.getElem?_reverse (by omega), hlen, List.getElem?_take, if_pos (by omega)]

theorem OccursAt.getElem?_reverse (h : OccursAt pat text p) (hk : k < pat.length) :
    pat.reverse[k]? = text[p + pat.length - 1 - k]? := by
  have hplace : p + pat.length - 1 - k = p + (pat.length - 1 - k) := by omega
  rw [List.getElem?_reverse hk, hplace, occursAt_iff.mp h _ (by omega)]

variable [DecidableEq α]

/-- The number of letters that two lists have in common at their beginnings. -/
def agree : List α → List α → ℕ
  | a :: xs, b :: ys => if a = b then agree xs ys + 1 else 0
  | _, _ => 0

/-- The end of the alignment after the one that ends at `e`. There is none behind the text, where
the pattern matches, and where no letter is left to compare. -/
def jump (shift : α → ℕ) (pat text : List α) (e : ℕ) : Option ℕ :=
  if text.length < e then none
  else
    let k := agree (text.take e).reverse pat.reverse
    if k = pat.length then none
    else ((text.take e).reverse[k]?).map fun c => e - k + shift c

/-- A move that is due to the letter `c` instead of the one at `k`, counted from the end of the
pattern, goes forward and passes no place where that letter stands in the pattern. -/
def Sound (shift : α → ℕ) (pat : List α) : Prop :=
  ∀ k c, k < pat.length → pat.reverse[k]? ≠ some c → k < shift c ∧ shift c ≤ pat.length ∧
    ∀ i, k < i → i < shift c → pat.reverse[i]? ≠ some c

theorem agree_cons (a b : α) (xs ys : List α) :
    agree (a :: xs) (b :: ys) = if a = b then agree xs ys + 1 else 0 := rfl

theorem agree_le_left (xs ys : List α) : agree xs ys ≤ xs.length := by
  fun_induction agree xs ys with
  | case1 a xs ys ih => simpa using ih
  | case2 => exact Nat.zero_le _
  | case3 => exact Nat.zero_le _

theorem agree_le_right (xs ys : List α) : agree xs ys ≤ ys.length := by
  fun_induction agree xs ys with
  | case1 a xs ys ih => simpa using ih
  | case2 => exact Nat.zero_le _
  | case3 => exact Nat.zero_le _

theorem getElem?_of_lt_agree (h : k < agree xs ys) : xs[k]? = ys[k]? := by
  induction xs generalizing ys k with
  | nil => simp [agree] at h
  | cons a xs ih =>
    cases ys with
    | nil => simp [agree] at h
    | cons b ys =>
      rw [agree_cons] at h
      split_ifs at h with hab
      · cases k with
        | zero => simp [hab]
        | succ k => simpa using ih (Nat.lt_of_succ_lt_succ h)
      · omega

theorem ne_getElem?_agree {a : α} (ha : xs[agree xs ys]? = some a) : ys[agree xs ys]? ≠ some a := by
  fun_induction agree xs ys with
  | case1 b xs ys ih => exact ih (by simpa using ha)
  | case2 b xs c ys h =>
    intro hc
    simp only [List.getElem?_cons_zero, Option.some_inj] at ha hc
    exact h (ha.trans hc.symm)
  | case3 xs ys h =>
    intro hys
    cases xs with
    | nil => cases ha
    | cons b xs =>
      cases ys with
      | nil => cases hys
      | cons c ys => exact h b xs c ys rfl rfl

theorem agree_append (zs : List α) : agree (zs ++ xs) (zs ++ ys) = zs.length + agree xs ys := by
  induction zs with
  | nil => simp
  | cons z zs ih =>
    rw [List.cons_append, List.cons_append, agree_cons, if_pos rfl, ih, List.length_cons,
      Nat.add_right_comm]

theorem le_agree (hk : k ≤ ys.length) (h : ∀ j < k, xs[j]? = ys[j]?) : k ≤ agree xs ys := by
  by_contra hlt
  have hlt : agree xs ys < k := not_le.mp hlt
  have hget : ys[agree xs ys]? = some ys[agree xs ys] := List.getElem?_eq_getElem (by omega)
  exact ne_getElem?_agree ((h _ hlt).trans hget) hget

/-- The pattern matches where it occurs, and nowhere else. -/
theorem agree_eq_length_iff (he : e ≤ text.length) :
    agree (text.take e).reverse pat.reverse = pat.length ↔
      ∃ p, p + pat.length = e ∧ OccursAt pat text p := by
  constructor
  · intro h
    have hle := agree_le_left (text.take e).reverse pat.reverse
    rw [h, List.length_reverse, List.length_take, Nat.min_eq_left he] at hle
    refine ⟨e - pat.length, by omega, occursAt_iff.mpr ?_⟩
    intro i hi
    have hsame := getElem?_of_lt_agree
      (by omega : pat.length - 1 - i < agree (text.take e).reverse pat.reverse)
    have hplace : e - 1 - (pat.length - 1 - i) = e - pat.length + i := by omega
    have hindex : pat.length - 1 - (pat.length - 1 - i) = i := by omega
    rwa [getElem?_reverse_take (by omega) he, hplace, List.getElem?_reverse (by omega),
      hindex] at hsame
  · rintro ⟨p, rfl, h⟩
    apply le_antisymm
    · simpa using agree_le_right (text.take (p + pat.length)).reverse pat.reverse
    · apply le_agree (by simp)
      intro j hj
      rw [getElem?_reverse_take (by omega) he, h.getElem?_reverse hj]

theorem jump_eq_some (h : jump shift pat text e = some e') :
    ∃ k c, e ≤ text.length ∧ k = agree (text.take e).reverse pat.reverse ∧ k < pat.length ∧ k < e ∧
      text[e - 1 - k]? = some c ∧ pat.reverse[k]? ≠ some c ∧ e' = e - k + shift c := by
  unfold jump at h
  dsimp only at h
  have hright := agree_le_right (text.take e).reverse pat.reverse
  rw [List.length_reverse] at hright
  split_ifs at h with hlong hmatch
  obtain ⟨c, hc, rfl⟩ := Option.map_eq_some_iff.mp h
  have hlt : agree (text.take e).reverse pat.reverse < (text.take e).reverse.length :=
    (List.getElem?_eq_some_iff.mp hc).1
  rw [List.length_reverse, List.length_take] at hlt
  refine ⟨_, c, not_lt.mp hlong, rfl, by omega, by omega, ?_, ne_getElem?_agree hc, rfl⟩
  rwa [← getElem?_reverse_take (by omega) (by omega)]

theorem jump_of_ne {c : α} (he : e ≤ text.length) (hk : k < pat.length) (hke : k < e)
    (hagree : k = agree (text.take e).reverse pat.reverse) (hc : text[e - 1 - k]? = some c) :
    jump shift pat text e = some (e - k + shift c) := by
  unfold jump
  rw [if_neg (by omega), ← hagree]
  simp only [hk.ne, if_false]
  rw [getElem?_reverse_take hke he, hc, Option.map_some]

theorem jump_of_length_lt (he : text.length < e) : jump shift pat text e = none := if_pos he

theorem jump_of_occursAt (hpat : pat ≠ []) (h : OccursAt pat text p) :
    jump shift pat text (p + pat.length) = none := by
  have he := h.le hpat
  have hmatch := (agree_eq_length_iff he).mpr ⟨p, rfl, h⟩
  unfold jump
  simp [hmatch]

/-- The next alignment, by the letters that are compared. -/
theorem jump_of_split {zs : List α} {c d : α} (he : e ≤ text.length)
    (htext : (text.take e).reverse = zs ++ c :: xs) (hpat : pat.reverse = zs ++ d :: ys)
    (hne : c ≠ d) : jump shift pat text e = some (e - zs.length + shift c) := by
  have hagree : zs.length = agree (text.take e).reverse pat.reverse := by
    rw [htext, hpat, agree_append, agree, if_neg hne, Nat.add_zero]
  have hlen := congrArg List.length hpat
  have hlentext := congrArg List.length htext
  simp only [List.length_reverse, List.length_append, List.length_cons, List.length_take] at hlen hlentext
  apply jump_of_ne he (by omega) (by omega) hagree
  rw [← getElem?_reverse_take (by omega) he, htext, List.getElem?_append_right le_rfl, Nat.sub_self,
    List.getElem?_cons_zero]

theorem jump_of_used (hused : e ≤ agree (text.take e).reverse pat.reverse)
    (hlt : agree (text.take e).reverse pat.reverse < pat.length) :
    jump shift pat text e = none := by
  have hnone : (text.take e).reverse[agree (text.take e).reverse pat.reverse]? = none := by
    rw [List.getElem?_eq_none_iff, List.length_reverse]
    exact (List.length_take_le _ _).trans hused
  unfold jump
  simp [hlt.ne, hnone]

/-- Without a next alignment, the end is behind the text, or the pattern matches, or the text in
front is used up. -/
theorem jump_eq_none (h : jump shift pat text e = none) :
    text.length < e ∨ (∃ p, p + pat.length = e ∧ OccursAt pat text p) ∨
      e ≤ agree (text.take e).reverse pat.reverse := by
  unfold jump at h
  dsimp only at h
  split_ifs at h with hlong hmatch
  · exact .inl hlong
  · exact .inr (.inl ((agree_eq_length_iff (not_lt.mp hlong)).mp hmatch))
  · right
    right
    have hnone := List.getElem?_eq_none_iff.mp (Option.map_eq_none_iff.mp h)
    rw [List.length_reverse, List.length_take] at hnone
    omega

/-- No alignment ends further than a pattern behind the text. -/
theorem jump_le (hshift : ∀ c, shift c ≤ pat.length) (h : jump shift pat text e = some e') :
    e' ≤ text.length + pat.length := by
  obtain ⟨k, c, he, -, -, -, -, -, rfl⟩ := jump_eq_some h
  have := hshift c
  omega

theorem Leads.jump_le (hshift : ∀ c, shift c ≤ pat.length) (h : Leads (jump shift pat text) e e')
    (he : e ≤ text.length + pat.length) : e' ≤ text.length + pat.length := by
  obtain ⟨n, hn⟩ := h
  induction n generalizing e with
  | zero =>
    obtain rfl := Option.some.inj hn
    exact he
  | succ n ih =>
    obtain ⟨f, hf, hrest⟩ := Option.bind_eq_some_iff.mp hn
    exact ih (Foundation.jump_le hshift hf) hrest

/-- A sound move goes forward, and no occurrence ends before the next alignment. -/
theorem Sound.jump (hsound : Sound shift pat) (h : jump shift pat text e = some e')
    (hbefore : ∀ p, OccursAt pat text p → e ≤ p + pat.length) :
    e < e' ∧ ∀ p, OccursAt pat text p → e' ≤ p + pat.length := by
  obtain ⟨k, c, he, hagree, hk, hke, hc, hne, rfl⟩ := jump_eq_some h
  obtain ⟨hforward, hshift, hpass⟩ := hsound k c hk hne
  refine ⟨by omega, ?_⟩
  intro p hp
  by_contra hlt
  have hle := hbefore p hp
  by_cases hzero : p + pat.length = e
  · have hmatch := (agree_eq_length_iff he).mpr ⟨p, hzero, hp⟩
    omega
  -- the letter of the text stands further from the end of this occurrence
  have hplace : p + pat.length - 1 - (p + pat.length - e + k) = e - 1 - k := by omega
  apply hpass (p + pat.length - e + k) (by omega) (by omega)
  rw [hp.getElem?_reverse (by omega), hplace, hc]

/-- Where the moves of a search end: at the first occurrence, and where there is none, not at
one. -/
def AtFirst (pat text : List α) (e : ℕ) : Prop :=
  match first pat text with
  | some p => e = p + pat.length
  | none => True

/-- Sound moves come to an end, and lead to the first occurrence. -/
theorem Sound.exists_end (hsound : Sound shift pat) (text : List α) (hpat : pat ≠ []) (hstart : pat.length ≤ e)
    (hbefore : ∀ p, OccursAt pat text p → e ≤ p + pat.length) :
    ∃ e', Leads (Foundation.jump shift pat text) e e' ∧
      Foundation.jump shift pat text e' = none ∧ AtFirst pat text e' := by
  induction hsize : text.length + 1 - e using Nat.strong_induction_on generalizing e with
  | _ n ih =>
    cases hjump : Foundation.jump shift pat text e with
    | some f =>
      obtain ⟨hlt, hnext⟩ := hsound.jump hjump hbefore
      have he : e ≤ text.length := by
        obtain ⟨-, -, he, -⟩ := jump_eq_some hjump
        exact he
      obtain ⟨e', hleads, hend⟩ := ih _ (by omega) (by omega) hnext rfl
      exact ⟨e', (Leads.step hjump).trans hleads, hend⟩
    | none =>
      refine ⟨e, Leads.refl _ _, hjump, ?_⟩
      unfold AtFirst
      cases hfirst : first pat text with
      | none => trivial
      | some p =>
        have hoccurs := (first_eq_some_iff.mp hfirst).1
        have hle := hbefore p hoccurs
        have hfit := hoccurs.le hpat
        rcases jump_eq_none hjump with hlong | ⟨q, hq, hoccursq⟩ | hused
        · omega
        · have hnot : ¬ q < p := fun hlt => (first_eq_some_iff.mp hfirst).2 q hlt hoccursq
          change e = p + pat.length
          omega
        · have hright := agree_le_right (text.take e).reverse pat.reverse
          rw [List.length_reverse] at hright
          have hmatch : agree (text.take e).reverse pat.reverse = pat.length := by omega
          obtain ⟨q, hq, hoccursq⟩ := (agree_eq_length_iff (by omega)).mp hmatch
          have hnot : ¬ q < p := fun hlt => (first_eq_some_iff.mp hfirst).2 q hlt hoccursq
          change e = p + pat.length
          omega

end Foundation
