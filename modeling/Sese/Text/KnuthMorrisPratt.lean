import Sese.Foundation.Borders
import Sese.Text.Algorithm

/-!
# The search of Knuth, Morris and Pratt

`KMP` makes the table of the text instead of the one of the pattern, and goes on behind an
occurrence. Where the entries that it looks up are the same in both tables it finds the last
occurrence.
-/
namespace Sese.Text

open Foundation

variable {pat tab text sub str : Bytes} {next : List ℤ} {c : UInt8} {i k m : ℕ}

/-- The entry of a table for the first `k` letters. -/
def entry (tab : Bytes) (k : ℕ) : ℕ := border (tab.take k)

/-- The first `m` entries of a table are borders. -/
def Table (tab : Bytes) (m : ℕ) (next : List ℤ) : Prop :=
  next.length = tab.length ∧ ∀ k, 0 < k → k ≤ m → next[k - 1]? = some (entry tab k : ℤ)

theorem entry_lt (tab : Bytes) (hk : 0 < k) (hle : k ≤ tab.length) : entry tab k < k := border_take_lt hk hle

theorem Table.readAt (h : Table tab m next) (hk : 0 < k) (hle : k ≤ m) :
    readAt next (k - 1 : ℤ) = .ok (entry tab k : ℤ) := by
  have hindex : (k - 1 : ℤ) = ((k - 1 : ℕ) : ℤ) := by omega
  rw [hindex]
  exact readAt_natCast next (h.2 k hk hle)

section Letter

variable (htable : Table tab m next) (hm : m ≤ tab.length) (hpat : pat <+: str)

include htable hm hpat

theorem fallBack_eq (c : UInt8) {fuel : ℕ} (hfuel : k < fuel) (hk : k < pat.length) (hkm : k ≤ m) :
    fallBack next str c fuel k = .ok (fall (entry tab) pat c k : ℤ) := by
  induction fuel generalizing k with
  | zero => omega
  | succ fuel ih =>
    have hletter : pat[k]? = some pat[k] := List.getElem?_eq_getElem hk
    have hread : Sese.Text.readAt str (k : ℤ) = .ok pat[k] := by
      obtain ⟨rest, rfl⟩ := hpat
      exact readAt_natCast _ (by rw [List.getElem?_append_left hk, hletter])
    rw [fallBack, fall]
    by_cases hzero : k = 0
    · rw [if_neg (by omega), if_pos (.inl hzero)]
      rfl
    · have hlt := entry_lt tab (Nat.pos_of_ne_zero hzero) (hkm.trans hm)
      rw [if_pos (by omega), hread, ok_bind, hletter]
      by_cases hc : c = pat[k]
      · rw [if_pos hc, if_pos (.inr (by rw [hc]))]
        rfl
      · have hstop : ¬ (k = 0 ∨ some pat[k] = some c) := by
          rintro (h | h)
          · exact hzero h
          · exact hc (Option.some.inj h).symm
        rw [if_neg hc, if_neg hstop, if_pos hlt, htable.readAt (Nat.pos_of_ne_zero hzero) hkm, ok_bind,
          ih (by omega) (by omega) (by omega)]

theorem advance_eq (c : UInt8) (hk : k < pat.length) (hkm : k ≤ m) (hbound : k + 1 < 2 ^ 31) :
    advance next str c k = .ok (step (entry tab) pat c k : ℤ) := by
  have hle := fall_le (entry tab) pat c k
  have hlt : fall (entry tab) pat c k < pat.length := by omega
  have hletter := List.getElem?_eq_getElem hlt
  have hread : Sese.Text.readAt str (fall (entry tab) pat c k : ℤ) =
      .ok pat[fall (entry tab) pat c k] := by
    obtain ⟨rest, rfl⟩ := hpat
    exact readAt_natCast _ (by rw [List.getElem?_append_left hlt, hletter])
  have hlen := htable.1
  rw [advance, fallBack_eq htable hm hpat c (by omega) hk hkm, ok_bind, hread, ok_bind, step, hletter]
  by_cases hc : c = pat[fall (entry tab) pat c k]
  · rw [if_pos hc, if_pos (by rw [← hc]), checkInt_of_lt (by omega) (by omega)]
    rfl
  · rw [if_neg hc, if_neg fun h => hc (Option.some.inj h).symm]
    rfl

end Letter

theorem entry_isLongest (text : Bytes) (i : ℕ) : IsLongest text (text.take i).tail (entry text i) := by
  have htail : (text.take i).tail.length ≤ i := by
    rw [List.length_tail]
    exact (Nat.sub_le _ _).trans (List.length_take_le _ _)
  obtain ⟨hoverlap, hlongest⟩ := border_isLongest (text.take i)
  exact ⟨(overlap_take_iff htail).mp hoverlap, fun b hb => hlongest b ((overlap_take_iff htail).mpr hb)⟩

theorem step_entry (hi : 0 < i) (hc : text[i]? = some c) :
    step (entry text) text c (entry text i) = entry text (i + 1) := by
  obtain ⟨hlt, hget⟩ := List.getElem?_eq_some_iff.mp hc
  have htail : (text.take (i + 1)).tail = (text.take i).tail ++ [c] := by
    rw [List.take_succ_eq_append_getElem hlt, hget, List.tail_append_of_ne_nil]
    exact List.ne_nil_of_length_pos (by rw [List.length_take]; omega)
  have hnext := entry_isLongest text (i + 1)
  rw [htail] at hnext
  obtain ⟨hoverlap, hlongest⟩ := entry_isLongest text i
  have hentry := entry_lt text hi hlt.le
  exact (step_isLongest (fun b _ _ _ _ => rfl) (by omega) hoverlap fun b _ hb => hlongest b hb).unique
    hnext

theorem nextLoop_eq {togo : ℕ} (htable : Table text i next) (hi : 0 < i)
    (hlen : i + togo = text.length) (hsize : text.length < 2 ^ 31) (hstr : text <+: str) :
    ∃ next', nextLoop str togo i next = .ok next' ∧ Table text text.length next' := by
  induction togo generalizing i next with
  | zero =>
    obtain rfl : i = text.length := hlen
    exact ⟨next, rfl, htable⟩
  | succ togo ih =>
    have hlt : i < text.length := by omega
    have hletter : text[i]? = some text[i] := List.getElem?_eq_getElem hlt
    have hread : Sese.Text.readAt str (i : ℤ) = .ok text[i] := by
      obtain ⟨rest, rfl⟩ := hstr
      exact readAt_natCast _ (by rw [List.getElem?_append_left hlt, hletter])
    have hentry := entry_lt text hi hlt.le
    have hindex : (i + 1 : ℤ) = ((i + 1 : ℕ) : ℤ) := by omega
    rw [nextLoop, htable.readAt hi le_rfl, ok_bind, hread, ok_bind,
      advance_eq htable hlt.le hstr _ (by omega) (by omega) (by omega), ok_bind,
      step_entry hi hletter, Int.toNat_natCast, hindex, checkInt_of_lt (by omega) (by omega), ok_bind]
    apply ih _ (by omega) (by omega)
    refine ⟨by rw [List.length_set, htable.1], ?_⟩
    intro k hk hle
    by_cases hlast : k = i + 1
    · rw [hlast, Nat.add_sub_cancel, List.getElem?_set_self (by rw [htable.1]; exact hlt)]
    · rw [List.getElem?_set_ne (by omega), htable.2 k hk (by omega)]

theorem getNext_eq (htext : (0 : UInt8) ∉ text) (hsize : text.length < 2 ^ 31) :
    ∃ next, getNext (text ++ [0]) = .ok next ∧ Table text text.length next := by
  rw [getNext, cstr_terminated htext]
  by_cases hempty : text.length = 0
  · rw [hempty]
    refine ⟨[], rfl, by simp [hempty], ?_⟩
    intro k hk hle
    omega
  · have hstart : Table text 1 (List.replicate text.length (0 : ℤ)) := by
      refine ⟨List.length_replicate, ?_⟩
      intro k hk hle
      obtain rfl : k = 1 := by omega
      have hzero : entry text 1 = 0 := by
        have := entry_lt text Nat.one_pos (by omega)
        omega
      rw [hzero, List.getElem?_replicate_of_lt (by omega)]
      rfl
    have hlen : 1 + (text.length - 1) = text.length := by omega
    exact nextLoop_eq hstart Nat.one_pos hlen hsize (List.prefix_append _ _)

/-- The table of the text has the entries of the pattern where the search looks them up. -/
def TablesAgree (text sub : Bytes) : Prop :=
  (∀ i c, text[i]? = some c → RightAt (entry text) sub (text.take i) c) ∧
    ∀ p, OccursAt sub text p → entry text sub.length = border sub

/-- The last occurrence in the first `i` letters, or `-1`. -/
def LastIn (sub text : Bytes) (i : ℕ) (r : ℤ) : Prop :=
  (r = -1 ∧ ∀ p, OccursAt sub text p → i < p + sub.length) ∨
    ∃ p : ℕ, r = p ∧ OccursAt sub text p ∧ p + sub.length ≤ i ∧
      ∀ q, OccursAt sub text q → q + sub.length ≤ i → q ≤ p

theorem lastIn_succ {res : ℤ} (h : LastIn sub text i res)
    (hnone : ∀ p, OccursAt sub text p → p + sub.length ≠ i + 1) : LastIn sub text (i + 1) res := by
  rcases h with ⟨rfl, hafter⟩ | ⟨p, rfl, hp, hpi, hmost⟩
  · refine .inl ⟨rfl, ?_⟩
    intro p hp
    have hne := hnone p hp
    have hlt := hafter p hp
    omega
  · refine .inr ⟨p, rfl, hp, by omega, ?_⟩
    intro q hq hqi
    have hne := hnone q hq
    exact hmost q hq (by omega)

/-- The search always comes to an end. If the tables agree, it keeps the longest overlap that is
not the whole pattern, and the last occurrence. -/
theorem scanLoop_eq {togo : ℕ} (htable : Table text text.length next)
    (hsize : text.length < 2 ^ 31) (hnul : (0 : UInt8) ∉ sub) (hsub : sub.length < 2 ^ 31)
    (hlen : i + togo = text.length) (hk : k < sub.length) (hki : k ≤ i) (res : ℤ) :
    ∃ r, scanLoop next (text ++ [0]) (sub ++ [0]) togo i k res = .ok r ∧
      (TablesAgree text sub → Overlap sub (text.take i) k →
        (∀ b, b < sub.length → Overlap sub (text.take i) b → b ≤ k) →
        LastIn sub text i res → LastIn sub text text.length r) := by
  induction togo generalizing i k res with
  | zero =>
    obtain rfl : i = text.length := hlen
    exact ⟨res, rfl, fun _ _ _ hlast => hlast⟩
  | succ togo ih =>
    have hlt : i < text.length := by omega
    have hletter : text[i]? = some text[i] := List.getElem?_eq_getElem hlt
    have hread : Sese.Text.readAt (text ++ [0]) (i : ℤ) = .ok text[i] :=
      readAt_natCast _ (by rw [List.getElem?_append_left hlt, hletter])
    have hstep := step_le (entry text) sub text[i] k
    have hindex : (i + 1 : ℤ) = ((i + 1 : ℕ) : ℤ) := by omega
    have htake : text.take (i + 1) = text.take i ++ [text[i]] := List.take_succ_eq_append_getElem hlt
    rw [scanLoop, hread, ok_bind, advance_eq htable le_rfl (List.prefix_append _ _) _ hk (by omega)
      (by omega), ok_bind, cstr_terminated hnul, toInt_of_lt hsub, hindex]
    by_cases hfull : step (entry text) sub text[i] k = sub.length
    · have hpos : 0 < sub.length := by omega
      have hentry := entry_lt text hpos (by omega)
      obtain ⟨r, hr, hlast⟩ := ih (i := i + 1) (k := entry text sub.length) (by omega) hentry (by omega)
        (i - sub.length + 1 : ℤ)
      rw [hfull, if_pos rfl, checkInt_of_lt (by omega) (by omega), ok_bind,
        htable.readAt hpos (by omega), ok_bind, checkInt_of_lt (by omega) (by omega), ok_bind]
      refine ⟨r, hr, ?_⟩
      intro hagree hoverlap hlongest _
      have hnext := step_isLongest (hagree.1 i _ hletter) hk hoverlap hlongest
      rw [hfull, ← htake] at hnext
      obtain ⟨p, hp, hoccurs⟩ := (overlap_length_iff (by omega)).mp hnext.1
      have hborder := hagree.2 p hoccurs
      have hshorter := hnext.1.border hpos
      rw [List.take_length] at hshorter
      rw [hborder] at hlast
      refine hlast hagree hshorter ?_ (.inr ⟨p, by omega, hoccurs, hp.le, fun q _ hq => by omega⟩)
      intro b hb hb'
      have hle := hnext.1.le_border hb hb'
      rwa [List.take_length] at hle
    · obtain ⟨r, hr, hlast⟩ := ih (i := i + 1) (k := step (entry text) sub text[i] k) (by omega)
        (by omega) (by omega) res
      rw [if_neg (by omega), checkInt_of_lt (by omega) (by omega), ok_bind]
      refine ⟨r, hr, ?_⟩
      intro hagree hoverlap hlongest hbefore
      have hnext := step_isLongest (hagree.1 i _ hletter) hk hoverlap hlongest
      rw [← htake] at hnext
      -- no occurrence ends at this letter
      have hnone : ∀ p, OccursAt sub text p → p + sub.length ≠ i + 1 := by
        intro p hp heq
        have hle := hnext.2 sub.length ((overlap_length_iff (by omega)).mpr ⟨p, heq, hp⟩)
        omega
      exact hlast hagree hnext.1 (fun b _ hb => hnext.2 b hb) (lastIn_succ hbefore hnone)

/-- No text of `2 ^ 31` letters comes through the loop of `getNext`. -/
theorem nextLoop_lt {next' : List ℤ} {togo : ℕ} {j : ℤ}
    (h : nextLoop str (togo + 1) j next = .ok next') : j + togo + 1 < 2 ^ 31 := by
  induction togo generalizing j next with
  | zero =>
    obtain ⟨k, -, h⟩ := bind_eq_ok.mp h
    obtain ⟨ch, -, h⟩ := bind_eq_ok.mp h
    obtain ⟨k', -, h⟩ := bind_eq_ok.mp h
    obtain ⟨j', hj, -⟩ := bind_eq_ok.mp h
    obtain ⟨rfl, -, hlt⟩ := checkInt_ok hj
    omega
  | succ togo ih =>
    rw [nextLoop] at h
    obtain ⟨k, -, h⟩ := bind_eq_ok.mp h
    obtain ⟨ch, -, h⟩ := bind_eq_ok.mp h
    obtain ⟨k', -, h⟩ := bind_eq_ok.mp h
    obtain ⟨j', hj, h⟩ := bind_eq_ok.mp h
    obtain ⟨rfl, -, -⟩ := checkInt_ok hj
    have hlt := ih h
    push_cast
    omega

theorem KMP_ne (htext : (0 : UInt8) ∉ text) (hsize : 2 ^ 31 ≤ text.length) (sub : Bytes) (r : ℤ) :
    KMP (text ++ [0]) sub ≠ .ok r := by
  intro h
  obtain ⟨next, hnext, -⟩ := bind_eq_ok.mp h
  obtain ⟨togo, htogo⟩ : ∃ togo, text.length - 1 = togo + 1 := ⟨text.length - 2, by omega⟩
  rw [getNext, cstr_terminated htext, htogo] at hnext
  have hlt := nextLoop_lt hnext
  omega

theorem KMP_eq (htext : (0 : UInt8) ∉ text) (hnul : (0 : UInt8) ∉ sub) (hsub : sub ≠ [])
    (hsize : text.length < 2 ^ 31) (hlen : sub.length < 2 ^ 31) :
    ∃ r, KMP (text ++ [0]) (sub ++ [0]) = .ok r ∧
      (TablesAgree text sub → LastIn sub text text.length r) := by
  have hpos := List.length_pos_of_ne_nil hsub
  obtain ⟨next, hnext, htable⟩ := getNext_eq htext hsize
  obtain ⟨r, hr, hlast⟩ := scanLoop_eq htable hsize hnul hlen (Nat.zero_add _) hpos le_rfl (-1)
  refine ⟨r, ?_, ?_⟩
  · rw [KMP, hnext, ok_bind, cstr_terminated htext, toInt_of_lt hsize, Int.toNat_natCast]
    exact hr
  · intro hagree
    refine hlast hagree (overlap_zero _ _) ?_ (.inl ⟨rfl, fun p _ => by omega⟩)
    intro b _ hb
    simpa using hb.le

theorem NORMAL_eq (htext : (0 : UInt8) ∉ text) (hnul : (0 : UInt8) ∉ sub) (hsub : sub ≠ [])
    (hsize : text.length < 2 ^ 31) :
    NORMAL (text ++ [0]) (sub ++ [0]) =
      match first sub text with
      | some p => (p : ℤ)
      | none => -1 := by
  rw [NORMAL, cstr_terminated htext, cstr_terminated hnul]
  cases hfirst : first sub text with
  | none => rfl
  | some p =>
    have hle := first_le hfirst hsub
    exact toInt_of_lt (by omega)

def AtMostOnce (sub text : Bytes) : Prop :=
  ∀ p q, OccursAt sub text p → OccursAt sub text q → p = q

theorem lastIn_first_iff {r : ℤ} (hsub : sub ≠ []) (h : LastIn sub text text.length r) :
    r = (match first sub text with | some p => (p : ℤ) | none => -1) ↔ AtMostOnce sub text := by
  rcases h with ⟨rfl, hnone⟩ | ⟨p, rfl, hp, -, hmost⟩
  · have hno : ∀ p, ¬ OccursAt sub text p := by
      intro p hp
      have hlt := hnone p hp
      have hle := hp.le hsub
      omega
    rw [first_eq_none_iff.mpr hno]
    exact ⟨fun _ p _ hp _ => absurd hp (hno p), fun _ => rfl⟩
  · cases hfirst : first sub text with
    | none => exact absurd hp (first_eq_none_iff.mp hfirst p)
    | some q =>
      obtain ⟨hq, hbefore⟩ := first_eq_some_iff.mp hfirst
      constructor
      · intro heq p' q' hp' hq'
        have hone : ∀ p', OccursAt sub text p' → p' = p := by
          intro p' hp'
          have hle := hmost p' hp' (hp'.le hsub)
          have hge : ¬ p' < q := fun hlt => hbefore p' hlt hp'
          simp only at heq
          omega
        rw [hone p' hp', hone q' hq']
      · intro honce
        rw [honce p q hp hq]

theorem KMP_eq_NORMAL_iff (htext : (0 : UInt8) ∉ text) (hnul : (0 : UInt8) ∉ sub) (hsub : sub ≠ [])
    (hsize : text.length < 2 ^ 31) (hlen : sub.length < 2 ^ 31) (hagree : TablesAgree text sub) :
    KMP (text ++ [0]) (sub ++ [0]) = .ok (NORMAL (text ++ [0]) (sub ++ [0])) ↔
      AtMostOnce sub text := by
  obtain ⟨r, hr, hlast⟩ := KMP_eq htext hnul hsub hsize hlen
  rw [hr, Except.ok.injEq, NORMAL_eq htext hnul hsub hsize]
  exact lastIn_first_iff hsub (hlast hagree)

theorem tablesAgree_of_nodup (h : text.Nodup) (sub : Bytes) : TablesAgree text sub := by
  have hentry : ∀ k, entry text k = 0 := fun k => border_eq_zero (h.sublist (List.take_sublist _ _))
  constructor
  · intro i c _ b _ _ hoverlap _
    rw [hentry, border_eq_zero]
    exact h.sublist (hoverlap.2.sublist.trans (List.take_sublist _ _))
  · intro p hp
    rw [hentry, border_eq_zero]
    exact h.sublist (hp.sublist.trans (List.drop_sublist _ _))

theorem atMostOnce_of_nodup (hsub : sub ≠ []) (h : text.Nodup) : AtMostOnce sub text := by
  intro p q hp hq
  have hpos := List.length_pos_of_ne_nil hsub
  have hlt := hp.le hsub
  have heq : text[p]? = text[q]? := by
    have hp' := occursAt_iff.mp hp 0 hpos
    have hq' := occursAt_iff.mp hq 0 hpos
    rw [Nat.add_zero] at hp' hq'
    rw [hp', hq']
  exact (List.getElem?_inj (by omega) h).mp heq

theorem tablesAgree_singleton (text : Bytes) (c : UInt8) : TablesAgree text [c] := by
  constructor
  · intro i c' _ b hb hlt _ _
    rw [List.length_singleton] at hlt
    omega
  · intro p hp
    have hle := hp.le (List.cons_ne_nil _ _)
    rw [List.length_singleton] at hle ⊢
    have hentry := entry_lt text Nat.one_pos (by omega)
    have hborder := border_lt (List.cons_ne_nil c [])
    rw [List.length_singleton] at hborder
    omega

theorem occursAt_singleton {p : ℕ} (h : text[p]? = some c) : OccursAt [c] text p := by
  rw [occursAt_iff]
  intro i hi
  obtain rfl : i = 0 := by simpa using hi
  exact h

/-- `KMP` comes back for every text that `int` can index. It is the plain search if the tables agree
and the pattern occurs at most once, and for all patterns exactly if no letter of the text is
repeated. -/
theorem KMP_iff (text : Bytes) (htext : (0 : UInt8) ∉ text) :
    (∀ sub : Bytes, (0 : UInt8) ∉ sub → sub ≠ [] → sub.length < 2 ^ 31 →
      ((∃ r, KMP (text ++ [0]) (sub ++ [0]) = .ok r) ↔ text.length < 2 ^ 31) ∧
      (text.length < 2 ^ 31 → TablesAgree text sub →
        (KMP (text ++ [0]) (sub ++ [0]) = .ok (NORMAL (text ++ [0]) (sub ++ [0])) ↔
          AtMostOnce sub text))) ∧
    (text.length < 2 ^ 31 →
      ((∀ sub : Bytes, (0 : UInt8) ∉ sub → sub ≠ [] → sub.length < 2 ^ 31 →
        KMP (text ++ [0]) (sub ++ [0]) = .ok (NORMAL (text ++ [0]) (sub ++ [0]))) ↔ text.Nodup)) := by
  constructor
  · intro sub hnul hsub hlen
    refine ⟨⟨?_, ?_⟩, fun hsize hagree => KMP_eq_NORMAL_iff htext hnul hsub hsize hlen hagree⟩
    · rintro ⟨r, hr⟩
      by_contra hlong
      exact KMP_ne htext (not_lt.mp hlong) _ r hr
    · intro hsize
      obtain ⟨r, hr, -⟩ := KMP_eq htext hnul hsub hsize hlen
      exact ⟨r, hr⟩
  · intro hsize
    constructor
    · intro hall
      rw [List.nodup_iff_getElem?_ne_getElem?]
      intro i j hij hj heq
      have hletter : text[j]? = some text[j] := List.getElem?_eq_getElem hj
      have hmem : text[j] ∈ text := List.getElem_mem hj
      have hnul : (0 : UInt8) ∉ [text[j]] := by
        intro h0
        rw [List.mem_singleton.mp h0] at htext
        exact htext hmem
      have hne := List.cons_ne_nil text[j] []
      have hshort : [text[j]].length < 2 ^ 31 := by
        rw [List.length_singleton]
        norm_num
      have honce := (KMP_eq_NORMAL_iff htext hnul hne hsize hshort
        (tablesAgree_singleton text text[j])).mp (hall _ hnul hne hshort)
      have hsame := honce i j (occursAt_singleton (heq.trans hletter)) (occursAt_singleton hletter)
      omega
    · intro hnodup sub hnul hsub hlen
      exact (KMP_eq_NORMAL_iff htext hnul hsub hsize hlen (tablesAgree_of_nodup hnodup sub)).mpr
        (atMostOnce_of_nodup hsub hnodup)

theorem KMP_iff_ab : (0 : UInt8) ∉ bytes "ab" ∧
    (∀ sub : Bytes, (0 : UInt8) ∉ sub → sub ≠ [] → sub.length < 2 ^ 31 →
      ((∃ r, KMP (bytes "ab" ++ [0]) (sub ++ [0]) = .ok r) ↔ (bytes "ab").length < 2 ^ 31) ∧
      ((bytes "ab").length < 2 ^ 31 → TablesAgree (bytes "ab") sub →
        (KMP (bytes "ab" ++ [0]) (sub ++ [0]) = .ok (NORMAL (bytes "ab" ++ [0]) (sub ++ [0])) ↔
          AtMostOnce sub (bytes "ab")))) ∧
    ((bytes "ab").length < 2 ^ 31 →
      ((∀ sub : Bytes, (0 : UInt8) ∉ sub → sub ≠ [] → sub.length < 2 ^ 31 →
        KMP (bytes "ab" ++ [0]) (sub ++ [0]) = .ok (NORMAL (bytes "ab" ++ [0]) (sub ++ [0]))) ↔
        (bytes "ab").Nodup)) :=
  ⟨by decide, KMP_iff (bytes "ab") (by decide)⟩

/-- In `aa` the last `a` is found, and in `abbba` the pattern `bba` is not found. -/
theorem KMP_ne_NORMAL :
    (KMP (bytes "aa" ++ [0]) (bytes "a" ++ [0]) = .ok 1 ∧
      NORMAL (bytes "aa" ++ [0]) (bytes "a" ++ [0]) = 0) ∧
    KMP (bytes "abbba" ++ [0]) (bytes "bba" ++ [0]) = .ok (-1) ∧
      NORMAL (bytes "abbba" ++ [0]) (bytes "bba" ++ [0]) = 2 := by
  decide +kernel

end Sese.Text
