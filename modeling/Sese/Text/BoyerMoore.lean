import Sese.Foundation.Alignments
import Sese.Text.Algorithm

/-!
# The search of Boyer and Moore

`BM` only knows how far the end of the pattern is from the last place of a letter, and counts it
from where the letter was met. So it may pass an occurrence, and may go back to an alignment that
it has seen.
-/
namespace Sese.Text

open Foundation

variable {α : Type} [DecidableEq α] {sub pat str text : List α} {e k : ℕ} {r : ℤ}

/-- The result of `dist`. -/
def shift (pat : List α) (ch : α) : ℕ :=
  if pat.getLast? = some ch then pat.length else pat.reverse.idxOf ch

/-- What the search sees of a pattern, because its length becomes an `int`. -/
def seen (sub : List α) : List α := sub.take (toInt sub.length).toNat

/-- The search comes from the first alignment to the one that ends at `e`, and stays there. No
alignment on the way ends where an `int` does not reach. -/
def Ends (pat text : List α) (e : ℕ) : Prop :=
  Leads (jump (shift pat) pat text) pat.length e ∧ jump (shift pat) pat text e = none ∧
    ∀ f, Leads (jump (shift pat) pat text) pat.length f → f ≤ 2 ^ 31

/-- The pattern matches at the alignment that ends at `e`. -/
def Matches (pat text : List α) (e : ℕ) : Prop := ∃ p, p + pat.length = e ∧ OccursAt pat text p

/-- The search comes to the first occurrence, or to an end where there is none. -/
def Comes (sub text : List α) : Prop :=
  match first sub text with
  | some p => toInt sub.length = 0 ∧ p = 0 ∨
      0 < toInt sub.length ∧ Ends (seen sub) text (p + (seen sub).length)
  | none => toInt sub.length = -1 ∨
      0 < toInt sub.length ∧ ∃ e, Ends (seen sub) text e ∧ ¬ Matches (seen sub) text e

/-- The index of the first occurrence, or `-1`. -/
def firstIndex (sub text : List α) : ℤ :=
  match first sub text with
  | some p => p
  | none => -1

theorem shift_le (pat : List α) (ch : α) : shift pat ch ≤ pat.length := by
  unfold shift
  split_ifs
  · exact le_rfl
  · simpa using List.idxOf_le_length (l := pat.reverse) (a := ch)

omit [DecidableEq α] in
theorem getElem?_of_begins {xs ys : List α} (h : xs <+: ys) {i : ℕ} {a : α} (hi : xs[i]? = some a) :
    ys[i]? = some a := by
  obtain ⟨rest, rfl⟩ := h
  rw [List.getElem?_append_left (List.getElem?_eq_some_iff.mp hi).1, hi]

omit [DecidableEq α] in
theorem readAt_pattern (hsub : pat <+: sub) {c : α} (hc : pat.reverse[k]? = some c) :
    readAt sub (pat.length - k - 1 : ℤ) = .ok c := by
  have hk : k < pat.length := by simpa using (List.getElem?_eq_some_iff.mp hc).1
  rw [List.getElem?_reverse hk] at hc
  have hplace : (pat.length - k - 1 : ℤ) = ((pat.length - 1 - k : ℕ) : ℤ) := by omega
  rw [hplace]
  exact readAt_natCast sub (getElem?_of_begins hsub hc)

section Pattern

variable (hsub : pat <+: sub) (hint : toInt sub.length = pat.length)

include hsub hint

theorem distLoop_eq (ch : α) (k : ℕ) {fuel : ℕ} (hk : k ≤ pat.length) (hfuel : pat.length - k < fuel) :
    distLoop sub ch fuel (pat.length - k - 1) = .ok ((k + (pat.reverse.drop k).idxOf ch : ℕ) : ℤ) := by
  induction fuel generalizing k with
  | zero => omega
  | succ fuel ih =>
    rw [distLoop]
    by_cases hlt : k < pat.length
    · have hreverse : k < pat.reverse.length := by simpa using hlt
      have hc : pat.reverse[k]? = some pat.reverse[k] := List.getElem?_eq_getElem hreverse
      rw [if_pos (by omega), readAt_pattern hsub hc, ok_bind, List.drop_eq_getElem_cons hreverse]
      by_cases hch : ch = pat.reverse[k]
      · have hdistance : (pat.length - 1 - (pat.length - k - 1) : ℤ) = ((k + 0 : ℕ) : ℤ) := by omega
        rw [if_pos hch, ← hch, List.idxOf_cons_self, hint, pure_eq_ok, hdistance]
      · have hnext : (pat.length - k - 1 - 1 : ℤ) = pat.length - ((k + 1 : ℕ) : ℤ) - 1 := by omega
        rw [if_neg hch, hnext, ih (k + 1) (by omega) (by omega), List.idxOf_cons_ne _ (Ne.symm hch),
          Nat.add_assoc, Nat.add_comm 1]
    · have hend : k = pat.length := by omega
      have hdrop : pat.reverse.drop k = [] := List.drop_eq_nil_of_le (by simp [hend])
      rw [if_neg (by omega), hdrop, List.idxOf_nil, hint, hend]
      rfl

theorem dist_eq (hpat : pat ≠ []) (ch : α) : dist sub ch = .ok (shift pat ch : ℤ) := by
  have hpos := List.length_pos_of_ne_nil hpat
  have hbound : (pat.length : ℤ) < 2 ^ 31 := by
    rw [← hint]
    exact toInt_lt _
  have hlen := hsub.length_le
  obtain ⟨c, rest, hreverse⟩ : ∃ c rest, pat.reverse = c :: rest :=
    List.exists_cons_of_ne_nil (by simpa using hpat)
  have hlast : pat.getLast? = some c := by
    rw [← List.head?_reverse, hreverse, List.head?_cons]
  have hread := readAt_pattern hsub (k := 0) (c := c) (by rw [hreverse]; rfl)
  have hplace : (pat.length - (0 : ℕ) - 1 : ℤ) = pat.length - 1 := by omega
  rw [hplace] at hread
  rw [dist, hint, checkInt_of_lt (by omega) (by omega), ok_bind, hread, ok_bind, shift, hlast]
  by_cases hch : ch = c
  · rw [if_pos hch, if_pos (by rw [hch])]
    rfl
  · have hne : ¬ some c = some ch := fun h => hch (Option.some.inj h).symm
    have hloop := distLoop_eq hsub hint ch 1 (by omega) (by omega : pat.length - 1 < sub.length + 1)
    have hsecond : (pat.length - (1 : ℕ) - 1 : ℤ) = pat.length - 1 - 1 := by omega
    rw [hsecond] at hloop
    rw [if_neg hch, if_neg hne, checkInt_of_lt (by omega) (by omega), ok_bind, hloop, hreverse,
      List.drop_one, List.tail_cons, List.idxOf_cons_ne _ (Ne.symm hch), Nat.add_comm]

end Pattern

/-- The indices when `k` letters of the alignment that ends at `e` were the same. -/
def indices (pat : List α) (e k : ℕ) : ℤ × ℤ := (e - k - 1, pat.length - k - 1)

theorem searchRound_match (he : e ≤ 2 ^ 31) (hpat : pat ≠ []) (hle : pat.length ≤ e) (n : ℕ) :
    searchRound str n sub (indices pat e pat.length) = .ok (.inr (e - pat.length)) := by
  have hpos := List.length_pos_of_ne_nil hpat
  have hindex : (e - pat.length - 1 + 1 : ℤ) = e - pat.length := by omega
  rw [searchRound, indices, if_neg (by omega), if_pos (by omega), hindex,
    checkInt_of_lt (by omega) (by omega)]
  rfl

theorem toSize_index (hk : k < e) (he : e ≤ 2 ^ 31) : toSize (e - k - 1) = e - k - 1 := by
  have hindex : (e - k - 1 : ℤ) = ((e - k - 1 : ℕ) : ℤ) := by omega
  rw [hindex, toSize_natCast (by unfold sizeBound; omega)]

theorem searchRound_stop {n : ℕ} (hn : n < sizeBound) (he : e ≤ 2 ^ 31) (hk : k < pat.length)
    (hstop : e = k ∨ n + k < e) : searchRound str n sub (indices pat e k) = .ok (.inr (-1)) := by
  have hsize : ¬ toSize (e - k - 1) < n := by
    rcases hstop with rfl | hlong
    · have hindex : (e - e - 1 : ℤ) = -1 := by omega
      rw [hindex]
      unfold toSize sizeBound at *
      omega
    · rw [toSize_index (by omega) he]
      omega
  rw [searchRound, indices, if_neg (fun h => hsize h.2), if_neg (by omega)]
  rfl

section Letters

variable (hsub : pat <+: sub) (hint : toInt sub.length = pat.length) (hstr : text <+: str)
  {c : α} (hk : k < pat.length) (hke : k < e) (hen : e ≤ text.length) (he : e ≤ 2 ^ 31)
  (hc : text[e - 1 - k]? = some c)

include hsub hstr hk hke hen he hc

theorem searchRound_letter : ∃ c', pat.reverse[k]? = some c' ∧
    searchRound str text.length sub (indices pat e k) =
      if c = c' then do
        let i ← checkInt (e - k - 1 - 1)
        let j ← checkInt (pat.length - k - 1 - 1)
        return .inl (i, j)
      else do
        let d ← dist sub c
        let i ← checkInt (e - k - 1 + d)
        let j ← checkInt (toInt sub.length - 1)
        return .inl (i, j) := by
  have hreverse : k < pat.reverse.length := by simpa using hk
  have hc' : pat.reverse[k]? = some pat.reverse[k] := List.getElem?_eq_getElem hreverse
  have hindex : (e - k - 1 : ℤ) = ((e - 1 - k : ℕ) : ℤ) := by omega
  have hread : readAt str (e - k - 1 : ℤ) = .ok c := by
    rw [hindex]
    exact readAt_natCast str (getElem?_of_begins hstr hc)
  refine ⟨_, hc', ?_⟩
  rw [searchRound, indices, if_pos ⟨by omega, by rw [toSize_index hke he]; omega⟩, hread, ok_bind,
    readAt_pattern hsub hc', ok_bind]

theorem searchRound_same (hbound : pat.length < 2 ^ 31) (hsame : pat.reverse[k]? = some c) :
    searchRound str text.length sub (indices pat e k) = .ok (.inl (indices pat e (k + 1))) := by
  obtain ⟨c', hc', hround⟩ := searchRound_letter hsub hstr hk hke hen he hc
  have heq : c = c' := Option.some.inj (hsame.symm.trans hc')
  have hi : (e - k - 1 - 1 : ℤ) = e - ((k + 1 : ℕ) : ℤ) - 1 := by omega
  have hj : (pat.length - k - 1 - 1 : ℤ) = pat.length - ((k + 1 : ℕ) : ℤ) - 1 := by omega
  rw [hround, if_pos heq, hi, hj, checkInt_of_lt (by omega) (by omega), ok_bind,
    checkInt_of_lt (by omega) (by omega)]
  rfl

include hint

theorem searchRound_other (hne : pat.reverse[k]? ≠ some c) :
    searchRound str text.length sub (indices pat e k) =
      if e - k + shift pat c ≤ 2 ^ 31 then .ok (.inl (indices pat (e - k + shift pat c) 0))
      else .error .intOverflow := by
  obtain ⟨c', hc', hround⟩ := searchRound_letter hsub hstr hk hke hen he hc
  have hpat : pat ≠ [] := List.ne_nil_of_length_pos (Nat.zero_lt_of_lt hk)
  have hdiffers : c ≠ c' := by
    rintro rfl
    exact hne hc'
  have hbound : (pat.length : ℤ) < 2 ^ 31 := by
    rw [← hint]
    exact toInt_lt _
  rw [hround, if_neg hdiffers, dist_eq hsub hint hpat, ok_bind, checkInt, hint]
  by_cases hfits : e - k + shift pat c ≤ 2 ^ 31
  · have hi : (e - k - 1 + shift pat c : ℤ) = ((e - k + shift pat c : ℕ) : ℤ) - (0 : ℕ) - 1 := by
      omega
    have hj : (pat.length - 1 : ℤ) = pat.length - (0 : ℕ) - 1 := by omega
    rw [if_pos (by omega), if_pos hfits, ok_bind, checkInt_of_lt (by omega) (by omega), hi, hj]
    rfl
  · rw [if_neg (by omega), if_neg hfits]
    rfl

end Letters

def Result (pat text : List α) (e : ℕ) (r : ℤ) : Prop :=
  Matches pat text e ∧ r = e - pat.length ∨ ¬ Matches pat text e ∧ r = -1

omit [DecidableEq α] in
theorem Result.unique {r' : ℤ} (h : Result pat text e r) (h' : Result pat text e r') : r = r' := by
  rcases h with ⟨hmatch, rfl⟩ | ⟨hnot, rfl⟩
  · rcases h' with ⟨-, rfl⟩ | ⟨hnot, -⟩
    · rfl
    · exact absurd hmatch hnot
  · rcases h' with ⟨hmatch, -⟩ | ⟨-, rfl⟩
    · exact absurd hmatch hnot
    · rfl

/-- From the alignment that ends at `e` on, the search returns `r`. -/
def Answers (pat text : List α) (e : ℕ) (r : ℤ) : Prop :=
  ∃ e', Leads (jump (shift pat) pat text) e e' ∧ jump (shift pat) pat text e' = none ∧
    (∀ f, Leads (jump (shift pat) pat text) e f → f ≤ 2 ^ 31) ∧ Result pat text e' r

/-- The number of letters that are the same at an alignment. -/
def same (pat text : List α) (e : ℕ) : ℕ :=
  if text.length < e then 0 else agree (text.take e).reverse pat.reverse

theorem leads_eq {f : α → ℕ} {e' : ℕ} (hnone : jump f pat text e = none)
    (h : Leads (jump f pat text) e e') : e' = e := by
  rcases h.cases with rfl | ⟨g, hg, -⟩
  · rfl
  · cases hnone.symm.trans hg

section Run

variable (hpat : pat ≠ []) (hsub : pat <+: sub) (hint : toInt sub.length = pat.length)
  (hstr : text <+: str) (htext : text.length < sizeBound)

include hpat hsub hint hstr htext

/-- A round finds one more letter the same, or it ends the search or goes to the next alignment. -/
theorem searchRound_cases (he : e ≤ 2 ^ 31) (hk : k ≤ same pat text e) :
    (k < same pat text e ∧
        searchRound str text.length sub (indices pat e k) = .ok (.inl (indices pat e (k + 1)))) ∨
      (k = same pat text e ∧ jump (shift pat) pat text e = none ∧ ∃ r, Result pat text e r ∧
        searchRound str text.length sub (indices pat e k) = .ok (.inr r)) ∨
      k = same pat text e ∧ ∃ e', jump (shift pat) pat text e = some e' ∧
        searchRound str text.length sub (indices pat e k) =
          if e' ≤ 2 ^ 31 then .ok (.inl (indices pat e' 0)) else .error .intOverflow := by
  have hpos := List.length_pos_of_ne_nil hpat
  unfold same at hk ⊢
  by_cases hbehind : text.length < e
  · right
    left
    rw [if_pos hbehind] at hk ⊢
    obtain rfl := Nat.le_zero.mp hk
    refine ⟨rfl, jump_of_length_lt hbehind, -1, .inr ⟨?_, rfl⟩,
      searchRound_stop htext he hpos (.inr hbehind)⟩
    rintro ⟨p, rfl, hp⟩
    have := hp.le hpat
    omega
  rw [if_neg hbehind] at hk ⊢
  have hen : e ≤ text.length := not_lt.mp hbehind
  have hright := agree_le_right (text.take e).reverse pat.reverse
  have hleft := agree_le_left (text.take e).reverse pat.reverse
  rw [List.length_reverse, List.length_take] at hleft
  rw [List.length_reverse] at hright
  by_cases hfull : k = pat.length
  · right
    left
    have hmatch : Matches pat text e := (agree_eq_length_iff hen).mp (by omega)
    obtain ⟨p, rfl, hp⟩ := hmatch
    refine ⟨by omega, jump_of_occursAt hpat hp, _, .inl ⟨⟨p, rfl, hp⟩, rfl⟩, ?_⟩
    rw [hfull]
    exact searchRound_match he hpat (by omega) _
  by_cases hused : k = e
  · right
    left
    refine ⟨by omega, jump_of_used (by omega) (by omega), -1, .inr ⟨?_, rfl⟩,
      searchRound_stop htext he (by omega) (.inl hused.symm)⟩
    rintro ⟨p, rfl, -⟩
    omega
  obtain ⟨c, hc⟩ : ∃ c, text[e - 1 - k]? = some c := ⟨_, List.getElem?_eq_getElem (by omega)⟩
  have htake := getElem?_reverse_take (by omega : k < e) hen
  rw [hc] at htake
  by_cases hsame : pat.reverse[k]? = some c
  · left
    have hbound := toInt_lt sub.length
    refine ⟨?_, searchRound_same hsub hstr (by omega) (by omega) hen he hc (by omega) hsame⟩
    by_contra hnot
    have hagree : agree (text.take e).reverse pat.reverse = k := by omega
    rw [← hagree] at htake hsame
    exact ne_getElem?_agree htake hsame
  · right
    right
    have hagree : k = agree (text.take e).reverse pat.reverse := by
      by_contra hne
      have heq := getElem?_of_lt_agree (by omega : k < agree (text.take e).reverse pat.reverse)
      exact hsame (heq.symm.trans htake)
    exact ⟨hagree, _, jump_of_ne hen (by omega) (by omega) hagree hc,
      searchRound_other hsub hint hstr (by omega) (by omega) hen he hc hsame⟩

theorem answers_of_delivers {s : ℤ × ℤ} (h : Delivers (searchRound str text.length sub) s r)
    (hs : s = indices pat e k) (he : e ≤ 2 ^ 31) (hk : k ≤ same pat text e) :
    Answers pat text e r := by
  induction h generalizing e k with
  | @done s r hround =>
    subst hs
    rcases searchRound_cases hpat hsub hint hstr htext he hk with
      ⟨-, hr⟩ | ⟨-, hnone, r', hresult, hr⟩ | ⟨-, e', -, hr⟩
    · rw [hround] at hr
      cases hr
    · rw [hround] at hr
      obtain rfl := Sum.inr.inj (Except.ok.inj hr)
      refine ⟨e, Leads.refl _ _, hnone, ?_, hresult⟩
      intro f hf
      rwa [leads_eq hnone hf]
    · rw [hround] at hr
      split_ifs at hr
      cases hr
  | @more s s' r hround hrest ih =>
    subst hs
    rcases searchRound_cases hpat hsub hint hstr htext he hk with
      ⟨hlt, hr⟩ | ⟨-, -, r', -, hr⟩ | ⟨-, e', hjump, hr⟩
    · rw [hround] at hr
      exact ih (Sum.inl.inj (Except.ok.inj hr)) he hlt
    · rw [hround] at hr
      cases hr
    · rw [hround] at hr
      split_ifs at hr with hfits
      obtain ⟨f, hleads, hnone, hbound, hresult⟩ := ih (Sum.inl.inj (Except.ok.inj hr)) hfits
        (Nat.zero_le _)
      refine ⟨f, (Leads.step hjump).trans hleads, hnone, ?_, hresult⟩
      intro g hg
      rcases hg.cases with rfl | ⟨g', hg', hrest'⟩
      · exact he
      · obtain rfl := Option.some.inj (hjump.symm.trans hg')
        exact hbound g hrest'

/-- The search finds all letters that are the same. -/
theorem visits_same (he : e ≤ 2 ^ 31) (hk : k ≤ same pat text e) :
    Visits (searchRound str text.length sub) (indices pat e 0) (indices pat e k) := by
  induction k with
  | zero => exact .refl
  | succ k ih =>
    rcases searchRound_cases hpat hsub hint hstr htext he (Nat.le_of_lt hk) with
      ⟨-, hr⟩ | ⟨heq, -⟩ | ⟨heq, -⟩
    · exact (ih (Nat.le_of_lt hk)).trans (Visits.step hr)
    · omega
    · omega

theorem delivers_of_answers (h : Answers pat text e r) :
    Delivers (searchRound str text.length sub) (indices pat e 0) r := by
  obtain ⟨f, ⟨n, hn⟩, hnone, hbound, hresult⟩ := h
  induction n generalizing e with
  | zero =>
    obtain rfl := Option.some.inj hn
    have he := hbound e (Leads.refl _ _)
    rw [(visits_same hpat hsub hint hstr htext he le_rfl).delivers]
    rcases searchRound_cases hpat hsub hint hstr htext he le_rfl with
      ⟨hlt, -⟩ | ⟨-, -, r', hresult', hr⟩ | ⟨-, e', hjump, -⟩
    · omega
    · rw [hresult.unique hresult']
      exact .done hr
    · cases hnone.symm.trans hjump
  | succ n ih =>
    obtain ⟨e', hjump, hrest⟩ := Option.bind_eq_some_iff.mp hn
    have he := hbound e (Leads.refl _ _)
    have hnext : ∀ g, Leads (jump (shift pat) pat text) e' g → g ≤ 2 ^ 31 := fun g hg =>
      hbound g ((Leads.step hjump).trans hg)
    rw [(visits_same hpat hsub hint hstr htext he le_rfl).delivers]
    rcases searchRound_cases hpat hsub hint hstr htext he le_rfl with
      ⟨hlt, -⟩ | ⟨-, hnone', -⟩ | ⟨-, e'', hjump', hr⟩
    · omega
    · cases hjump.symm.trans hnone'
    · obtain rfl := Option.some.inj (hjump.symm.trans hjump')
      rw [if_pos (hnext _ (Leads.refl _ _))] at hr
      exact .more hr (ih hrest hnext)

theorem search_iff : (∃ fuel, search fuel str text.length sub = .ok r) ↔
    Answers pat text pat.length r := by
  have hpos := List.length_pos_of_ne_nil hpat
  have hbound := toInt_lt sub.length
  have hstart : (pat.length - 1 : ℤ) = pat.length - (0 : ℕ) - 1 := by omega
  have hsearch : ∀ fuel, search fuel str text.length sub =
      iterate .endlessLoop (searchRound str text.length sub) fuel (indices pat pat.length 0) := by
    intro fuel
    rw [search, hint, checkInt_of_lt (by omega) (by omega), ok_bind, indices, ← hstart]
  simp only [hsearch]
  rw [← delivers_iff_iterate]
  constructor
  · intro h
    exact answers_of_delivers hpat hsub hint hstr htext h rfl (by omega) (Nat.zero_le _)
  · exact delivers_of_answers hpat hsub hint hstr htext

end Run

omit [DecidableEq α] in
theorem seen_begins (sub : List α) : seen sub <+: sub := List.take_prefix _ _

omit [DecidableEq α] in
theorem length_seen (h : 0 < toInt sub.length) : toInt sub.length = (seen sub).length := by
  have hle := toInt_le sub.length
  rw [seen, List.length_take]
  omega

theorem search_nonpos (hint : toInt sub.length ≤ 0) (n : ℕ) :
    (∃ fuel, search fuel str n sub = .ok r) ↔ -2 ^ 31 < toInt sub.length ∧ r = toInt sub.length := by
  have hlow := le_toInt sub.length
  by_cases hleast : toInt sub.length = -2 ^ 31
  · have hfault : ∀ fuel, search fuel str n sub = .error .intOverflow := by
      intro fuel
      rw [search, hleast, checkInt, if_neg (by norm_num), error_bind]
    simp [hfault, hleast]
  · have hround : searchRound str n sub (toInt sub.length - 1, toInt sub.length - 1) =
        .ok (.inr (toInt sub.length)) := by
      rw [searchRound, if_neg (by omega), if_pos (by omega), Int.sub_add_cancel,
        checkInt_of_lt (by omega) (by omega)]
      rfl
    have hsearch : ∀ fuel, search fuel str n sub = iterate .endlessLoop (searchRound str n sub) fuel
        (toInt sub.length - 1, toInt sub.length - 1) := by
      intro fuel
      rw [search, checkInt_of_lt (by omega) (by omega), ok_bind]
    simp only [hsearch]
    rw [← delivers_iff_iterate]
    constructor
    · intro h
      exact ⟨by omega, h.unique (.done hround)⟩
    · rintro ⟨-, hr⟩
      rw [hr]
      exact .done hround

/-- The search returns the index of the first occurrence exactly when it comes to it. -/
theorem search_first_iff (hstr : text <+: str) (htext : text.length < sizeBound) :
    (∃ fuel, search fuel str text.length sub = .ok (firstIndex sub text)) ↔ Comes sub text := by
  by_cases hint : 0 < toInt sub.length
  · have hlen := length_seen hint
    have hpat : seen sub ≠ [] := List.ne_nil_of_length_pos (by omega)
    rw [search_iff hpat (seen_begins sub) hlen hstr htext, Comes, firstIndex]
    cases hfirst : first sub text with
    | none =>
      simp only
      constructor
      · rintro ⟨e, hleads, hnone, hbound, ⟨⟨p, rfl, -⟩, hr⟩ | ⟨hnot, -⟩⟩
        · omega
        · exact .inr ⟨hint, e, ⟨hleads, hnone, hbound⟩, hnot⟩
      · rintro (hminus | ⟨-, e, ⟨hleads, hnone, hbound⟩, hnot⟩)
        · omega
        · exact ⟨e, hleads, hnone, hbound, .inr ⟨hnot, rfl⟩⟩
    | some p =>
      simp only
      have hoccurs : OccursAt (seen sub) text p :=
        (seen_begins sub).trans (first_eq_some_iff.mp hfirst).1
      constructor
      · rintro ⟨e, hleads, hnone, hbound, ⟨-, hr⟩ | ⟨-, hr⟩⟩
        · have hend : e = p + (seen sub).length := by omega
          rw [hend] at hleads hnone
          exact .inr ⟨hint, hleads, hnone, hbound⟩
        · omega
      · rintro (⟨hzero, -⟩ | ⟨-, hleads, hnone, hbound⟩)
        · omega
        · exact ⟨_, hleads, hnone, hbound, .inl ⟨⟨p, rfl, hoccurs⟩, by omega⟩⟩
  · rw [search_nonpos (not_lt.mp hint), Comes, firstIndex]
    cases hfirst : first sub text with
    | none =>
      simp only [hint, false_and, or_false]
      omega
    | some p =>
      simp only [hint, false_and, or_false]
      omega

end Sese.Text
