import Sese.Text.BoyerMoore

/-!
# The patterns of the search of Boyer and Moore

`BM` is right for every text if the pattern is a run of one letter with a run of another letter in
front of it. With any other pattern there is a text that keeps it going round for ever.
-/
namespace Sese.Text

open Foundation

variable {α : Type} {pat text : List α} {a b c x : α} {h q r : ℕ} {zs : List α}

/-- A run of one letter, and at most one other run in front of it. -/
def TwoRuns (pat : List α) : Prop :=
  ∃ b a h q, 0 < q ∧ pat = List.replicate h b ++ List.replicate q a

theorem reverse_runs (b a : α) (h q : ℕ) :
    (List.replicate h b ++ List.replicate q a).reverse =
      List.replicate q a ++ List.replicate h b := by
  rw [List.reverse_append, List.reverse_replicate, List.reverse_replicate]

theorem replicate_append_cons (b : α) (h : ℕ) (zs : List α) :
    List.replicate h b ++ b :: zs = b :: (List.replicate h b ++ zs) := by
  rw [List.append_cons, ← List.replicate_succ', List.replicate_succ, List.cons_append]

theorem exists_run {l : List α} (hne : l ≠ []) :
    ∃ a q rest, 0 < q ∧ l = List.replicate q a ++ rest ∧ rest.head? ≠ some a := by
  induction l with
  | nil => exact absurd rfl hne
  | cons a l ih =>
    by_cases hhead : l.head? = some a
    · have hl : l ≠ [] := by
        rintro rfl
        cases hhead
      obtain ⟨a', q, rest, hq, rfl, hrest⟩ := ih hl
      obtain ⟨q, rfl⟩ : ∃ k, q = k + 1 := ⟨q - 1, by omega⟩
      obtain rfl : a' = a := by simpa [List.replicate_succ] using hhead
      exact ⟨a', q + 1 + 1, rest, Nat.succ_pos _, rfl, hrest⟩
    · exact ⟨a, 1, l, Nat.one_pos, rfl, hhead⟩

/-- A pattern that has a third run ends with two runs and another letter in front of them. -/
theorem exists_three_runs (hpat : pat ≠ []) (hnot : ¬ TwoRuns pat) :
    ∃ a b x q h zs, 0 < q ∧ 0 < h ∧ b ≠ a ∧ x ≠ b ∧
      pat.reverse = List.replicate q a ++ (List.replicate h b ++ x :: zs) := by
  obtain ⟨a, q, rest, hq, hrun, hrest⟩ := exists_run (l := pat.reverse) (by simpa using hpat)
  by_cases hone : rest = []
  · refine absurd ⟨a, a, 0, q, hq, ?_⟩ hnot
    rw [← List.reverse_reverse pat, hrun, hone, List.append_nil, List.reverse_replicate]
    rfl
  obtain ⟨b, h, rest', hh, rfl, hrest'⟩ := exists_run hone
  cases rest' with
  | nil =>
    refine absurd ⟨b, a, h, q, hq, ?_⟩ hnot
    rw [← List.reverse_reverse pat, hrun, List.append_nil, reverse_runs]
  | cons x zs =>
    obtain ⟨k, rfl⟩ : ∃ k, h = k + 1 := ⟨h - 1, by omega⟩
    refine ⟨a, b, x, q, k + 1, zs, hq, hh, ?_, ?_, hrun⟩
    · rintro rfl
      exact hrest rfl
    · rintro rfl
      exact hrest' rfl

variable [DecidableEq α]

theorem shift_last (hq : 0 < q) (hpat : pat.reverse = List.replicate q a ++ zs) :
    shift pat a = pat.length := by
  obtain ⟨k, rfl⟩ : ∃ k, q = k + 1 := ⟨q - 1, by omega⟩
  rw [shift, if_pos]
  rw [← List.head?_reverse, hpat]
  rfl

theorem shift_ne (hq : 0 < q) (hca : c ≠ a) (hpat : pat.reverse = List.replicate q a ++ zs) :
    shift pat c = q + zs.idxOf c := by
  obtain ⟨k, rfl⟩ : ∃ k, q = k + 1 := ⟨q - 1, by omega⟩
  have hmem : c ∉ List.replicate (k + 1) a := fun hmem => hca (List.eq_of_mem_replicate hmem)
  rw [shift, if_neg, hpat, List.idxOf_append_of_notMem hmem, List.length_replicate]
  rw [← List.head?_reverse, hpat]
  intro heq
  exact hca (Option.some.inj heq).symm

omit [DecidableEq α] in
theorem getElem?_runs (a b : α) (q h i : ℕ) :
    (List.replicate q a ++ List.replicate h b)[i]? =
      if i < q then some a else if i < q + h then some b else none := by
  split_ifs with hq hh
  · rw [List.getElem?_append_left (by simpa using hq), List.getElem?_replicate_of_lt hq]
  · rw [List.getElem?_append_right (by simpa using hq), List.length_replicate,
      List.getElem?_replicate_of_lt (by omega)]
  · rw [List.getElem?_eq_none_iff, List.length_append, List.length_replicate, List.length_replicate]
    omega

/-- With two runs, a letter that differs stands in none of the places that are passed. -/
theorem sound_of_twoRuns (hpat : TwoRuns pat) : Sound (shift pat) pat := by
  obtain ⟨b, a, h, q, hq, rfl⟩ := hpat
  have hreverse := reverse_runs b a h q
  have hlength : (List.replicate h b ++ List.replicate q a).length = h + q := by simp
  intro k c hk hne
  simp only [hreverse, getElem?_runs] at hne ⊢
  rw [hlength] at hk ⊢
  by_cases hca : c = a
  · -- the letter is the last one, so that the difference is in the first run
    subst hca
    have hqk : ¬ k < q := fun hlt => hne (if_pos hlt)
    rw [if_neg hqk, if_pos (by omega)] at hne
    rw [shift_last hq hreverse, hlength]
    refine ⟨hk, le_rfl, ?_⟩
    intro i hki hi
    rwa [if_neg (by omega), if_pos (by omega)]
  rw [shift_ne hq hca hreverse]
  by_cases hcb : c = b
  · subst hcb
    by_cases hh : h = 0
    · subst hh
      refine ⟨by simpa using hk, by simp, ?_⟩
      intro i hki hi
      simp only [List.replicate_zero, List.idxOf_nil, Nat.add_zero] at hi
      rw [if_pos hi]
      exact fun heq => hca (Option.some.inj heq).symm
    · have hkq : k < q := by
        by_contra hlt
        exact hne (by rw [if_neg hlt, if_pos (by omega)])
      obtain ⟨k', rfl⟩ : ∃ k, h = k + 1 := ⟨h - 1, by omega⟩
      rw [List.replicate_succ, List.idxOf_cons_self, Nat.add_zero]
      refine ⟨hkq, by omega, ?_⟩
      intro i hki hi
      rw [if_pos hi]
      exact fun heq => hca (Option.some.inj heq).symm
  · have hmem : c ∉ List.replicate h b := fun hmem => hcb (List.eq_of_mem_replicate hmem)
    rw [List.idxOf_of_notMem hmem, List.length_replicate]
    refine ⟨by omega, by omega, ?_⟩
    intro i hki hi
    split_ifs
    · exact fun heq => hca (Option.some.inj heq).symm
    · exact fun heq => hcb (Option.some.inj heq).symm

section Stuck

variable (hq : 0 < q) (hh : 0 < h) (hba : b ≠ a) (hxb : x ≠ b)
  (hpat : pat.reverse = List.replicate q a ++ (List.replicate h b ++ x :: zs))
  (htext : text.reverse = List.replicate q a ++ (List.replicate h b ++ b :: zs))

include hpat htext

omit [DecidableEq α] in
theorem length_stuck : text.length = pat.length ∧ q + h < pat.length := by
  have hpatlen := congrArg List.length hpat
  have htextlen := congrArg List.length htext
  simp only [List.length_reverse, List.length_append, List.length_replicate, List.length_cons] at hpatlen htextlen
  omega

omit [DecidableEq α] in
theorem take_stuck (hr : r ≤ pat.length) : (text.take (pat.length - r)).reverse =
    (List.replicate q a ++ (List.replicate h b ++ b :: zs)).drop r := by
  have hlen := (length_stuck hpat htext).1
  rw [List.reverse_take, htext, hlen, Nat.sub_sub_self hr]

include hq hba

theorem shift_stuck (hh : 0 < h) : shift pat b = q := by
  obtain ⟨k, rfl⟩ : ∃ k, h = k + 1 := ⟨h - 1, by omega⟩
  rw [shift_ne hq hba hpat, List.replicate_succ, List.cons_append, List.idxOf_cons_self, Nat.add_zero]

include hh

theorem jump_back (hxb : x ≠ b) :
    jump (shift pat) pat text pat.length = some (pat.length - h) := by
  obtain ⟨hlen, hlt⟩ := length_stuck hpat htext
  have htake := take_stuck hpat htext (Nat.zero_le _)
  rw [Nat.sub_zero, List.drop_zero, ← List.append_assoc] at htake
  rw [← List.append_assoc] at hpat
  rw [jump_of_split hlen.ge htake hpat hxb.symm, List.length_append, List.length_replicate,
    List.length_replicate]
  rw [List.append_assoc] at hpat
  rw [shift_stuck hq hba hpat htext hh]
  congr 1
  omega

/-- From there the alignments come to the first one again. -/
theorem leads_first (hr : r ≤ h) :
    Leads (jump (shift pat) pat text) (pat.length - r) pat.length := by
  obtain ⟨hlen, hlt⟩ := length_stuck hpat htext
  induction r using Nat.strong_induction_on with
  | _ r ih =>
    by_cases hzero : r = 0
    · rw [hzero, Nat.sub_zero]
      exact Leads.refl _ _
    have htake := take_stuck hpat htext (r := r) (by omega)
    by_cases hrq : r < q
    · -- what is left of the last run is the same, and the letter in front of it is not
      have htext' : (text.take (pat.length - r)).reverse =
          List.replicate (q - r) a ++ b :: (List.replicate h b ++ zs) := by
        rw [htake, List.drop_append_of_le_length (by simpa using hrq.le), List.drop_replicate,
          replicate_append_cons]
      have hpat' : pat.reverse = List.replicate (q - r) a ++
          a :: (List.replicate (r - 1) a ++ (List.replicate h b ++ x :: zs)) := by
        have hsplit : List.replicate q a =
            List.replicate (q - r) a ++ a :: List.replicate (r - 1) a := by
          rw [← List.replicate_succ, ← List.replicate_add]
          congr 1
          omega
        rw [hpat, hsplit, List.append_assoc, List.cons_append]
      apply Leads.step
      rw [jump_of_split (by omega) htext' hpat' hba, shift_stuck hq hba hpat htext hh,
        List.length_replicate]
      congr 1
      omega
    · -- the alignment ends in the run of the other letter
      have htext' : (text.take (pat.length - r)).reverse =
          [] ++ b :: (List.replicate (h - (r - q)) b ++ zs) := by
        have hrun : r - q ≤ (List.replicate h b).length := by
          rw [List.length_replicate]
          omega
        rw [htake, List.drop_append, List.drop_of_length_le (by simpa using hrq), List.length_replicate,
          List.drop_append_of_le_length hrun, List.drop_replicate, replicate_append_cons]
      obtain ⟨k, rfl⟩ : ∃ k, q = k + 1 := ⟨q - 1, by omega⟩
      have hpat' : pat.reverse = [] ++ a :: (List.replicate k a ++ (List.replicate h b ++ x :: zs)) := hpat
      have hjump : jump (shift pat) pat text (pat.length - r) = some (pat.length - (r - (k + 1))) := by
        rw [jump_of_split (by omega) htext' hpat' hba, shift_stuck hq hba hpat htext hh]
        congr 1
        simp only [List.length_nil]
        omega
      exact (Leads.step hjump).trans (ih (r - (k + 1)) (by omega) (by omega))

theorem jump_ne_none (hxb : x ≠ b) {e : ℕ} (he : Leads (jump (shift pat) pat text) pat.length e) :
    jump (shift pat) pat text e ≠ none := by
  intro hnone
  obtain ⟨n, hn⟩ := he
  have hover : orbit (jump (shift pat) pat text) (n + 1) pat.length = none := by
    rw [orbit_add, hn, Option.bind_some, orbit_succ, hnone, Option.bind_none]
  obtain ⟨j, hj⟩ := leads_first hq hh hba hpat htext le_rfl
  apply neverReturns_of_orbit_eq_none hover pat.length (Leads.refl _ _) (j + 1) (Nat.succ_pos j)
  rw [orbit_succ, jump_back hq hh hba hpat htext hxb, Option.bind_some, hj]

end Stuck

/-- A text for a pattern with a third run. -/
theorem exists_stuck (hpat : pat ≠ []) (hnot : ¬ TwoRuns pat) :
    ∃ text : List α, text.length = pat.length ∧ (∀ c ∈ text, c ∈ pat) ∧
      ∀ e, Leads (jump (shift pat) pat text) pat.length e → jump (shift pat) pat text e ≠ none := by
  obtain ⟨a, b, x, q, h, zs, hq, hh, hba, hxb, hrev⟩ := exists_three_runs hpat hnot
  have htext : (List.replicate q a ++ (List.replicate h b ++ b :: zs)).reverse.reverse =
      List.replicate q a ++ (List.replicate h b ++ b :: zs) := List.reverse_reverse _
  refine ⟨_, (length_stuck hrev htext).1, ?_, fun e he => jump_ne_none hq hh hba hrev htext hxb he⟩
  intro c hc
  rw [← List.mem_reverse, hrev]
  simp only [List.mem_reverse, List.mem_append, List.mem_cons, List.mem_replicate] at hc ⊢
  rcases hc with hc | hc | hc | hc
  · exact .inl hc
  · exact .inr (.inl hc)
  · exact .inr (.inl ⟨by omega, hc⟩)
  · exact .inr (.inr (.inr hc))

theorem comes_of_twoRuns (hpat : TwoRuns pat) (hsize : text.length + pat.length < 2 ^ 31) :
    Comes pat text := by
  have hint := toInt_of_lt (n := pat.length) (by omega)
  have hseen : seen pat = pat := by
    rw [seen, hint, Int.toNat_natCast, List.take_length]
  have hne : pat ≠ [] := by
    obtain ⟨b, a, h, q, hq, rfl⟩ := hpat
    exact List.append_ne_nil_of_right_ne_nil _ (by simpa using hq.ne')
  have hpos := List.length_pos_of_ne_nil hne
  obtain ⟨e, hleads, hnone, hfirst⟩ := (sound_of_twoRuns hpat).exists_end text hne le_rfl
    fun p _ => Nat.le_add_left _ _
  have hends : Ends pat text e := by
    refine ⟨hleads, hnone, ?_⟩
    intro f hf
    have := hf.jump_le (shift_le pat) (Nat.le_add_left _ _)
    omega
  unfold AtFirst at hfirst
  unfold Comes
  rw [hint, hseen]
  cases hcase : first pat text with
  | none =>
    refine .inr ⟨by omega, e, hends, ?_⟩
    rintro ⟨p, -, hp⟩
    exact first_eq_none_iff.mp hcase p hp
  | some p =>
    rw [hcase] at hfirst
    simp only at hfirst
    exact .inr ⟨by omega, hfirst ▸ hends⟩

theorem search_ne (hpat : pat ≠ []) (hsize : pat.length < 2 ^ 31) {str : List α} (hstr : text <+: str)
    (htext : text.length < sizeBound)
    (hstuck : ∀ e, Leads (jump (shift pat) pat text) pat.length e →
      jump (shift pat) pat text e ≠ none) (fuel : ℕ) (r : ℤ) :
    search fuel str text.length pat ≠ .ok r := by
  intro hresult
  obtain ⟨e, hleads, hnone, -⟩ := (search_iff hpat (List.prefix_refl pat) (toInt_of_lt hsize) hstr
    htext).mp ⟨fuel, hresult⟩
  exact hstuck e hleads hnone

theorem BM_eq {text sub : Bytes} (htext : (0 : UInt8) ∉ text) (hsub : (0 : UInt8) ∉ sub) (fuel : ℕ) :
    BM fuel (text ++ [0]) (sub ++ [0]) = search fuel (text ++ [0]) text.length sub := by
  rw [BM, cstr_terminated htext, cstr_terminated hsub]

theorem BM_first_iff {text sub : Bytes} (htext : (0 : UInt8) ∉ text) (hsub : (0 : UInt8) ∉ sub)
    (hsize : text.length < sizeBound) :
    (∃ fuel, BM fuel (text ++ [0]) (sub ++ [0]) = .ok (firstIndex sub text)) ↔ Comes sub text := by
  simp only [BM_eq htext hsub]
  exact search_first_iff (List.prefix_append _ _) hsize

/-- Both functions return the index of the first occurrence, or `-1`, exactly when the search comes
to it. It comes to it in every text if the pattern has at most two runs; with another pattern there
is a text for which the function never returns. -/
theorem BM_iff (sub : Bytes) (hsub : (0 : UInt8) ∉ sub) (chars : List ℕ) :
    (∀ text : Bytes, (0 : UInt8) ∉ text → text.length < sizeBound →
      ((∃ fuel, BM fuel (text ++ [0]) (sub ++ [0]) = .ok (firstIndex sub text)) ↔ Comes sub text)) ∧
    (∀ text : List ℕ, text.length < sizeBound →
      ((∃ fuel, BMChars fuel text text.length chars = .ok (firstIndex chars text)) ↔
        Comes chars text)) ∧
    (sub ≠ [] →
      (TwoRuns sub → ∀ text : Bytes, text.length + sub.length < 2 ^ 31 → Comes sub text) ∧
      (¬ TwoRuns sub → sub.length < 2 ^ 31 → ∃ text : Bytes, (0 : UInt8) ∉ text ∧
        text.length = sub.length ∧ ∀ fuel r, BM fuel (text ++ [0]) (sub ++ [0]) ≠ .ok r)) := by
  refine ⟨?_, ?_, ?_⟩
  · exact fun text htext hsize => BM_first_iff htext hsub hsize
  · intro text hsize
    exact search_first_iff (List.prefix_refl text) hsize
  · intro hne
    refine ⟨fun hruns text hsize => comes_of_twoRuns hruns hsize, ?_⟩
    intro hnot hsize
    obtain ⟨text, hlen, hmem, hstuck⟩ := exists_stuck hne hnot
    have htext : (0 : UInt8) ∉ text := fun h => hsub (hmem 0 h)
    refine ⟨text, htext, hlen, ?_⟩
    intro fuel r
    rw [BM_eq htext hsub]
    exact search_ne hne hsize (List.prefix_append _ _) (by unfold sizeBound; omega) hstuck fuel r

theorem BM_iff_abc : (0 : UInt8) ∉ bytes "abc" ∧
    (∀ text : Bytes, (0 : UInt8) ∉ text → text.length < sizeBound →
      ((∃ fuel, BM fuel (text ++ [0]) (bytes "abc" ++ [0]) = .ok (firstIndex (bytes "abc") text)) ↔
        Comes (bytes "abc") text)) ∧
    (∀ text : List ℕ, text.length < sizeBound →
      ((∃ fuel, BMChars fuel text text.length [97] = .ok (firstIndex [97] text)) ↔
        Comes [97] text)) ∧
    (bytes "abc" ≠ [] →
      (TwoRuns (bytes "abc") → ∀ text : Bytes, text.length + (bytes "abc").length < 2 ^ 31 →
        Comes (bytes "abc") text) ∧
      (¬ TwoRuns (bytes "abc") → (bytes "abc").length < 2 ^ 31 → ∃ text : Bytes, (0 : UInt8) ∉ text ∧
        text.length = (bytes "abc").length ∧
          ∀ fuel r, BM fuel (text ++ [0]) (bytes "abc" ++ [0]) ≠ .ok r)) :=
  ⟨by decide, BM_iff (bytes "abc") (by decide) [97]⟩

/-- The pattern `abc` keeps the search in the text `bbc` going, and in `xxccac` the pattern `ccac`
is not found. -/
theorem not_found_abc :
    (∀ fuel r, BM fuel (bytes "bbc" ++ [0]) (bytes "abc" ++ [0]) ≠ .ok r) ∧
      BM 9 (bytes "xxccac" ++ [0]) (bytes "ccac" ++ [0]) = .ok (-1) ∧
      first (bytes "ccac") (bytes "xxccac") = some 2 := by
  refine ⟨?_, by decide +kernel, by decide +kernel⟩
  intro fuel r
  rw [BM_eq (by decide) (by decide)]
  apply search_ne (by decide) (by decide) (List.prefix_append _ _) (by decide)
  intro e he
  have hpat : (bytes "abc").reverse = List.replicate 1 99 ++ (List.replicate 1 98 ++ 97 :: []) := by
    decide
  have htext : (bytes "bbc").reverse = List.replicate 1 99 ++ (List.replicate 1 98 ++ 98 :: []) := by
    decide
  exact jump_ne_none Nat.one_pos Nat.one_pos (by decide) hpat htext (by decide) he

end Sese.Text
