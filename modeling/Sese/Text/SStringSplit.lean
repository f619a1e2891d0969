import Sese.Text.AbstractStringBuffer
import Sese.Text.SStringOperations
import Sese.Text.SearchPatterns

/-!
# Splitting a UTF-8 string

`SStringView::split` searches with `BM` and copies the parts. The result of its first search is
used without a test, so that a string without the separator is never split.
-/
namespace Sese.Text

open Foundation

namespace SStringView

def ofChars (junk : ℕ → UInt8) (str : Bytes) (size : ℕ) : Except Fault SStringView :=
  copyOut junk str 0 size

/-- `SString::fromUTF8`. The block has the capacity as many times as the capacity has units. -/
def fromUTF8 (junk : ℕ → UInt8) (str : Bytes) : Except Fault SStringView := do
  let text ← readCString str
  let n := text.length / 16 + 1
  let capacity := n * 16 % sizeBound
  let block ← store (malloc junk (n * capacity % sizeBound)) 0 text
  let block ← store block text.length [0]
  return ⟨block, text.length⟩

/-- The loop of `split`; each search has at most `limit` rounds. The result of a search becomes a
`size_t`, also where it is compared with `-1`. -/
def splitLoop (junk : ℕ → UInt8) (data str : Bytes) (limit : ℕ) :
    ℕ → ℕ → ℕ → List SStringView → Except Fault (List SStringView)
  | 0, _, _, _ => .error .endlessLoop
  | fuel + 1, pos1, pos2, v => do
    let part ← ofChars junk (data.drop pos1) (toSize ((pos2 : ℤ) - pos1))
    let pos1 := (pos2 + (cstr str).length) % sizeBound
    let found ← BM limit (data.drop pos1) str
    if toSize found = toSize (-1) then
      let last ← fromUTF8 junk (data.drop pos1)
      return v ++ [part, last]
    else splitLoop junk data str limit fuel pos1 ((toSize found + pos1) % sizeBound) (v ++ [part])

def split (junk : ℕ → UInt8) (fuel : ℕ) (s : SStringView) (str : Bytes) :
    Except Fault (List SStringView) := do
  let found ← BM fuel s.data str
  splitLoop junk s.data str fuel fuel 0 (toSize found) []

variable {junk : ℕ → UInt8} {data text sep part : Bytes} {str : SStringView}

/-- The string has these octets, and `_size` is their number. -/
def IsPart (str : SStringView) (part : Bytes) : Prop := str.text = part ∧ str.size = part.length

/-- The block of `fromUTF8` has room for so many octets and a NUL. -/
def Roomy (n : ℕ) : Prop := n < (n / 16 + 1) * ((n / 16 + 1) * 16 % sizeBound) % sizeBound

theorem roomy_of_lt {n : ℕ} (h : n < 2 ^ 31) : Roomy n := by
  unfold Roomy sizeBound
  have hq : n / 16 + 1 ≤ 2 ^ 27 := by omega
  generalize hk : n / 16 + 1 = k at hq
  have hinner : k * 16 % 2 ^ 64 = k * 16 := Nat.mod_eq_of_lt (by omega)
  have hbound : k * (k * 16) ≤ 2 ^ 27 * (2 ^ 27 * 16) :=
    Nat.mul_le_mul hq (Nat.mul_le_mul_right 16 hq)
  have hgrow : 1 * (k * 16) ≤ k * (k * 16) := Nat.mul_le_mul_right _ (by omega)
  rw [hinner, Nat.mod_eq_of_lt (by omega)]
  omega

theorem ofChars_eq (junk : ℕ → UInt8) (data : Bytes) {n : ℕ} (hn : n ≤ data.length) (hsize : n < 2 ^ 63) :
    ∃ str, ofChars junk data n = .ok str ∧ IsPart str (data.take n) := by
  have hlen : (data.take n).length = n := by
    rw [List.length_take]
    exact Nat.min_eq_left hn
  have hblock := length_malloc junk ((n / 16 + 1) * 16 % sizeBound)
  have hload : load data 0 n = .ok (data.take n) := by
    rw [load, if_pos (by omega)]
    rfl
  have hroom : (data.take n).length < (malloc junk ((n / 16 + 1) * 16 % sizeBound)).length := by
    rw [hlen, hblock]
    unfold sizeBound
    omega
  obtain ⟨rest, hstore, hnul⟩ := store_terminated hroom
  rw [hlen] at hstore hnul
  refine ⟨⟨data.take n ++ rest, n⟩, ?_, ?_, hlen.symm⟩
  · simp only [ofChars, copyOut, le_refl, if_true, Int.toNat_zero, hload, ok_bind, hstore, hnul]
    rfl
  · rw [SStringView.text]
    exact List.take_left' hlen

theorem ofChars_ok {n : ℕ} (h : ofChars junk data n = .ok str) : str.size = n := by
  unfold ofChars copyOut at h
  obtain ⟨src, -, h⟩ := bind_eq_ok.mp h
  obtain ⟨block, -, h⟩ := bind_eq_ok.mp h
  obtain ⟨block', -, h⟩ := bind_eq_ok.mp h
  exact congrArg SStringView.size (Except.ok.inj h).symm

theorem readCString_eq (h : (0 : UInt8) ∉ text) : readCString (text ++ [0]) = .ok text := by
  rw [readCString, if_pos (by simp), cstr_terminated h]

theorem fromUTF8_eq (junk : ℕ → UInt8) (h : (0 : UInt8) ∉ text) (hroom : Roomy text.length) :
    ∃ str, fromUTF8 junk (text ++ [0]) = .ok str ∧ IsPart str text := by
  have hblock := length_malloc junk
    ((text.length / 16 + 1) * ((text.length / 16 + 1) * 16 % sizeBound) % sizeBound)
  unfold Roomy at hroom
  rw [← hblock] at hroom
  obtain ⟨rest, hstore, hnul⟩ := store_terminated hroom
  refine ⟨⟨text ++ rest, text.length⟩, ?_, List.take_left, rfl⟩
  simp only [fromUTF8, readCString_eq h, ok_bind, hstore, hnul]
  rfl

theorem fromUTF8_ok (h : (0 : UInt8) ∉ text) (hok : fromUTF8 junk (text ++ [0]) = .ok str) :
    Roomy text.length := by
  simp only [fromUTF8, readCString_eq h, ok_bind] at hok
  obtain ⟨block, hstore, hok⟩ := bind_eq_ok.mp hok
  obtain ⟨block', hnul, -⟩ := bind_eq_ok.mp hok
  unfold store at hstore hnul
  split_ifs at hstore hnul with hfit hfit'
  obtain rfl := Except.ok.inj hstore
  rw [length_overwrite (by omega), length_malloc, List.length_singleton] at hfit'
  exact hfit'

theorem BM_mono {m n : ℕ} {r : ℤ} (h : BM m data sep = .ok r) (hle : m ≤ n) :
    BM n data sep = .ok r := by
  obtain ⟨i, hi, h⟩ := bind_eq_ok.mp h
  rw [BM, search, hi, ok_bind]
  exact iterate_mono h hle

theorem BM_range {n : ℕ} {r : ℤ} (h : BM n data sep = .ok r) : -2 ^ 31 ≤ r ∧ r < 2 ^ 31 := by
  obtain ⟨i, -, h⟩ := bind_eq_ok.mp h
  have hdelivers := (delivers_iff_iterate Fault.endlessLoop).mpr ⟨n, h⟩
  refine hdelivers.invariant (I := fun _ => True) (P := fun r => -2 ^ 31 ≤ r ∧ r < 2 ^ 31)
    (fun _ _ _ _ => trivial) ?_ trivial
  intro s r _ hround
  rw [searchRound] at hround
  split_ifs at hround
  · obtain ⟨ch, -, hround⟩ := bind_eq_ok.mp hround
    obtain ⟨c, -, hround⟩ := bind_eq_ok.mp hround
    split_ifs at hround
    · obtain ⟨i, -, hround⟩ := bind_eq_ok.mp hround
      obtain ⟨j, -, hround⟩ := bind_eq_ok.mp hround
      cases hround
    · obtain ⟨d, -, hround⟩ := bind_eq_ok.mp hround
      obtain ⟨i, -, hround⟩ := bind_eq_ok.mp hround
      obtain ⟨j, -, hround⟩ := bind_eq_ok.mp hround
      cases hround
  · obtain ⟨i, hi, hround⟩ := bind_eq_ok.mp hround
    obtain ⟨rfl, hlow, hhigh⟩ := checkInt_ok hi
    obtain rfl := Sum.inr.inj (Except.ok.inj hround)
    exact ⟨hlow, hhigh⟩
  · obtain rfl := Sum.inr.inj (Except.ok.inj hround)
    norm_num

theorem toSize_eq_natCast {r : ℤ} {p : ℕ} (hlow : -2 ^ 31 ≤ r) (hhigh : r < 2 ^ 31) (hp : p < 2 ^ 63)
    (h : toSize r = p) : r = p := by
  unfold toSize sizeBound at h
  omega

theorem toSize_eq_minus {r : ℤ} (hlow : -2 ^ 31 ≤ r) (hhigh : r < 2 ^ 31)
    (h : toSize r = toSize (-1)) : r = -1 := by
  unfold toSize sizeBound at h
  omega

theorem toSize_ne_minus {p : ℕ} (hp : p < 2 ^ 63) : toSize (p : ℤ) ≠ toSize (-1) := by
  unfold toSize sizeBound
  omega

theorem splitLoop_head {limit fuel pos1 pos2 : ℕ} {v w : List SStringView}
    (h : splitLoop junk data sep limit fuel pos1 pos2 v = .ok w) :
    ∃ part more, w = v ++ part :: more ∧ more ≠ [] ∧ part.size = toSize ((pos2 : ℤ) - pos1) := by
  induction fuel generalizing pos1 pos2 v with
  | zero => cases h
  | succ fuel ih =>
    rw [splitLoop] at h
    obtain ⟨part, hpart, h⟩ := bind_eq_ok.mp h
    obtain ⟨found, -, h⟩ := bind_eq_ok.mp h
    have hsize := ofChars_ok hpart
    split_ifs at h
    · obtain ⟨last, -, h⟩ := bind_eq_ok.mp h
      obtain rfl := Except.ok.inj h
      exact ⟨part, [last], rfl, List.cons_ne_nil _ _, hsize⟩
    · obtain ⟨part', more, rfl, -, -⟩ := ih h
      exact ⟨part, part' :: more, by rw [List.append_assoc, List.singleton_append],
        List.cons_ne_nil _ _, hsize⟩

/-- The string and all its rests behind a separator are searched right, and the last of them is
copied into a block that has room for it. -/
inductive Splits (sep : Bytes) : Bytes → List Bytes → Prop
  | last {text : Bytes} : first sep text = none → Comes sep text → Roomy text.length →
      Splits sep text [text]
  | more {text : Bytes} {p : ℕ} {parts : List Bytes} : first sep text = some p → Comes sep text →
      Splits sep (text.drop (p + sep.length)) parts → Splits sep text (text.take p :: parts)

theorem drop_terminated {pos : ℕ} (hpos : pos ≤ text.length) :
    (text ++ [0]).drop pos = text.drop pos ++ [0] := List.drop_append_of_le_length hpos

section Loop

variable {rest : Bytes} {parts : List Bytes} {pos p : ℕ} {v w : List SStringView}
  (htext : (0 : UInt8) ∉ text) (hsep : (0 : UInt8) ∉ sep) (hne : sep ≠ []) (hlen : text.length < 2 ^ 63)

theorem toSize_sub (hp : p + pos < sizeBound) : toSize (((p + pos : ℕ) : ℤ) - pos) = p := by
  rw [Nat.cast_add, Int.add_sub_cancel]
  exact toSize_natCast (by omega)

include htext hsep hlen

theorem comes_iff_found (hpos : pos ≤ text.length) :
    (∃ limit, BM limit ((text ++ [0]).drop pos) (sep ++ [0]) =
      .ok (firstIndex sep (text.drop pos))) ↔ Comes sep (text.drop pos) := by
  have hrest : (0 : UInt8) ∉ text.drop pos := fun hmem => htext (List.mem_of_mem_drop hmem)
  have hsize : (text.drop pos).length < sizeBound := by
    rw [List.length_drop]
    unfold sizeBound
    omega
  rw [drop_terminated hpos]
  exact BM_first_iff hrest hsep hsize

theorem exists_found (hpos : pos ≤ text.length) (h : Comes sep (text.drop pos)) :
    ∃ fuel, ∀ limit, fuel ≤ limit → BM limit ((text ++ [0]).drop pos) (sep ++ [0]) =
      .ok (firstIndex sep (text.drop pos)) := by
  obtain ⟨fuel, hfuel⟩ := (comes_iff_found htext hsep hlen hpos).mpr h
  exact ⟨fuel, fun limit hle => BM_mono hfuel hle⟩

include hne

omit htext in
theorem splitLoop_round (junk : ℕ → UInt8) (hpos : pos ≤ text.length)
    (hfirst : first sep (text.drop pos) = some p) :
    pos + p + sep.length ≤ text.length ∧ ∃ part, IsPart part ((text.drop pos).take p) ∧
      ∀ limit fuel v, splitLoop junk (text ++ [0]) (sep ++ [0]) limit (fuel + 1) pos (p + pos) v =
        BM limit ((text ++ [0]).drop (pos + p + sep.length)) (sep ++ [0]) >>= fun found =>
          if toSize found = toSize (-1) then
            fromUTF8 junk ((text ++ [0]).drop (pos + p + sep.length)) >>= fun last =>
              .ok (v ++ [part, last])
          else
            splitLoop junk (text ++ [0]) (sep ++ [0]) limit fuel (pos + p + sep.length)
              ((toSize found + (pos + p + sep.length)) % sizeBound) (v ++ [part]) := by
  have hle := first_le hfirst hne
  rw [List.length_drop] at hle
  have hsize : toSize (((p + pos : ℕ) : ℤ) - pos) = p := toSize_sub (by unfold sizeBound; omega)
  have hnext : (p + pos + sep.length) % sizeBound = pos + p + sep.length := by
    unfold sizeBound
    omega
  obtain ⟨part, hpart, htake⟩ := ofChars_eq junk ((text ++ [0]).drop pos) (n := p)
    (by rw [List.length_drop, List.length_append]; omega) (by omega)
  rw [drop_terminated hpos, List.take_append_of_le_length (by rw [List.length_drop]; omega)] at htake
  refine ⟨by omega, part, htake, ?_⟩
  intro limit fuel v
  rw [splitLoop, hsize, hpart, ok_bind, cstr_terminated hsep]
  simp only [hnext, pure_eq_ok]

theorem splitLoop_eq (junk : ℕ → UInt8) (h : Splits sep rest parts) (hrest : text.drop pos = rest)
    (hpos : pos ≤ text.length) (hfirst : first sep rest = some p) :
    ∃ fuel vs, List.Forall₂ IsPart vs parts ∧ ∀ limit, fuel ≤ limit → ∀ turns, fuel ≤ turns → ∀ v,
      splitLoop junk (text ++ [0]) (sep ++ [0]) limit turns pos (p + pos) v = .ok (v ++ vs) := by
  induction h generalizing pos p with
  | last hnone => cases hnone.symm.trans hfirst
  | @more rest p' parts hsome _ hsplits ih =>
    obtain rfl := Option.some.inj (hsome.symm.trans hfirst)
    subst hrest
    obtain ⟨hnext, part, hpart, hround⟩ := splitLoop_round hsep hne hlen junk hpos hfirst
    have hdrop : text.drop (pos + p' + sep.length) = (text.drop pos).drop (p' + sep.length) := by
      rw [List.drop_drop, Nat.add_assoc]
    have hcomes : Comes sep (text.drop (pos + p' + sep.length)) := by
      rw [hdrop]
      cases hsplits with
      | last _ hcomes => exact hcomes
      | more _ hcomes => exact hcomes
    obtain ⟨fuel, hfound⟩ := exists_found htext hsep hlen hnext hcomes
    have hnul : (0 : UInt8) ∉ text.drop (pos + p' + sep.length) := fun hmem =>
      htext (List.mem_of_mem_drop hmem)
    cases hcase : first sep (text.drop (pos + p' + sep.length)) with
    | none =>
      -- the last part
      have hindex : firstIndex sep (text.drop (pos + p' + sep.length)) = -1 := by
        rw [firstIndex, hcase]
      obtain ⟨last, hlast, hroom⟩ : ∃ last, parts = [last] ∧
          last = text.drop (pos + p' + sep.length) ∧ Roomy last.length := by
        rw [← hdrop] at hsplits
        cases hsplits with
        | last _ _ hroom => exact ⟨_, rfl, rfl, hroom⟩
        | more hsome' => cases hcase.symm.trans hsome'
      obtain ⟨rfl, hroom⟩ := hroom
      obtain ⟨str, hstr, hispart⟩ := fromUTF8_eq junk hnul hroom
      refine ⟨fuel + 1, [part, str], ?_, ?_⟩
      · rw [hlast]
        exact .cons hpart (.cons hispart .nil)
      · intro limit hlimit turns hturns v
        obtain ⟨turns, rfl⟩ : ∃ k, turns = k + 1 := ⟨turns - 1, by omega⟩
        rw [hround, hfound limit (by omega), ok_bind, hindex, if_pos rfl, drop_terminated hnext, hstr]
        rfl
    | some q =>
      have hindex : firstIndex sep (text.drop (pos + p' + sep.length)) = q := by
        rw [firstIndex, hcase]
      have hle := first_le hcase hne
      rw [List.length_drop] at hle
      obtain ⟨fuel', vs, hvs, hloop⟩ := ih hdrop hnext (hdrop ▸ hcase)
      refine ⟨max fuel fuel' + 1, part :: vs, .cons hpart hvs, ?_⟩
      intro limit hlimit turns hturns v
      obtain ⟨turns, rfl⟩ : ∃ k, turns = k + 1 := ⟨turns - 1, by omega⟩
      have hplace : (toSize (q : ℤ) + (pos + p' + sep.length)) % sizeBound =
          q + (pos + p' + sep.length) := by
        rw [toSize_natCast (by unfold sizeBound; omega)]
        unfold sizeBound
        omega
      rw [hround, hfound limit (by omega), ok_bind, hindex, if_neg (toSize_ne_minus (by omega)), hplace,
        hloop limit (by omega) turns (by omega), List.append_assoc, List.singleton_append]

omit hne in
theorem splits_last {limit : ℕ} {r : ℤ} {last : SStringView} (hpos : pos ≤ text.length)
    (hnone : first sep (text.drop pos) = none)
    (hfound : BM limit ((text ++ [0]).drop pos) (sep ++ [0]) = .ok r) (hr : toSize r = toSize (-1))
    (hlast : fromUTF8 junk ((text ++ [0]).drop pos) = .ok last) :
    Splits sep (text.drop pos) [text.drop pos] := by
  obtain ⟨hlow, hhigh⟩ := BM_range hfound
  obtain rfl := toSize_eq_minus hlow hhigh hr
  have hindex : firstIndex sep (text.drop pos) = -1 := by
    rw [firstIndex, hnone]
  have hnul : (0 : UInt8) ∉ text.drop pos := fun hmem => htext (List.mem_of_mem_drop hmem)
  rw [drop_terminated hpos] at hlast
  exact .last hnone ((comes_iff_found htext hsep hlen hpos).mp ⟨limit, hindex ▸ hfound⟩)
    (fromUTF8_ok hnul hlast)

/-- A loop that copies the parts has found every separator. -/
theorem splits_of_splitLoop {limit fuel : ℕ} {r : ℤ} {vs : List SStringView} (hpos : pos ≤ text.length)
    (hfound : BM limit ((text ++ [0]).drop pos) (sep ++ [0]) = .ok r) (hr : toSize r ≠ toSize (-1))
    (h : splitLoop junk (text ++ [0]) (sep ++ [0]) limit fuel pos ((toSize r + pos) % sizeBound) v =
      .ok (v ++ vs))
    (hparts : Parts sep (text.drop pos) parts) (hvs : List.Forall₂ IsPart vs parts) :
    Splits sep (text.drop pos) parts ∧ first sep (text.drop pos) ≠ none := by
  induction fuel generalizing pos r v vs parts with
  | zero => cases h
  | succ fuel ih =>
    obtain ⟨hlow, hhigh⟩ := BM_range hfound
    obtain ⟨part, more, hmore, hmorene, hsize⟩ := splitLoop_head h
    obtain rfl := List.append_cancel_left hmore
    have hcopied : toSize ((((toSize r + pos) % sizeBound : ℕ) : ℤ) - pos) = toSize r := by
      unfold toSize sizeBound
      omega
    rw [hcopied] at hsize
    cases hparts with
    | last =>
      cases hvs with
      | cons _ hnil =>
        cases hnil
        exact absurd rfl hmorene
    | @more _ p parts hfirst hrest =>
      cases hvs with
      | cons hpart hvs =>
        obtain ⟨hnext, part', hpart', hround⟩ := splitLoop_round hsep hne hlen junk hpos hfirst
        have hp : toSize r = p := by
          rw [← hsize, hpart.2, List.length_take, List.length_drop]
          omega
        obtain rfl := toSize_eq_natCast hlow hhigh (by omega) hp
        have hplace : (toSize (p : ℤ) + pos) % sizeBound = p + pos := by
          rw [hp]
          unfold sizeBound
          omega
        have hcomes : Comes sep (text.drop pos) := by
          have hindex : firstIndex sep (text.drop pos) = p := by rw [firstIndex, hfirst]
          exact (comes_iff_found htext hsep hlen hpos).mp ⟨limit, hindex ▸ hfound⟩
        have hdrop : text.drop (pos + p + sep.length) = (text.drop pos).drop (p + sep.length) := by
          rw [List.drop_drop, Nat.add_assoc]
        rw [hplace, hround] at h
        obtain ⟨found, hfound', h⟩ := bind_eq_ok.mp h
        rw [← hdrop] at hrest
        refine ⟨?_, by rw [hfirst]; exact Option.some_ne_none _⟩
        apply Splits.more hfirst hcomes
        rw [← hdrop]
        split_ifs at h with hminus
        · obtain ⟨last, hlast, h⟩ := bind_eq_ok.mp h
          have hlist := List.append_cancel_left (Except.ok.inj h)
          obtain ⟨-, rfl⟩ := List.cons.inj hlist
          cases hrest with
          | more _ hnil =>
            cases hvs with
            | cons _ hrest' =>
              cases hrest'
              exact absurd rfl hnil.ne_nil
          | last hnone => exact splits_last htext hsep hlen hnext hnone hfound' hminus hlast
        · obtain ⟨part'', more', hlist, -, -⟩ := splitLoop_head h
          rw [List.append_assoc, List.singleton_append] at hlist
          obtain ⟨rfl, rfl⟩ := List.cons.inj (List.append_cancel_left hlist)
          have hwhole : v ++ part :: part'' :: more' = (v ++ [part]) ++ part'' :: more' := by
            rw [List.append_assoc, List.singleton_append]
          rw [hwhole] at h
          exact (ih hnext hfound' hminus h hrest hvs).1

end Loop

/-- The function gives the parts of the string, which are the string again when they are joined with
the separator. -/
def SplitsRight (junk : ℕ → UInt8) (text sep : Bytes) : Prop :=
  ∃ fuel v parts, split junk fuel (ofCString text) (sep ++ [0]) = .ok v ∧ Parts sep text parts ∧
    List.Forall₂ IsPart v parts ∧ sep.intercalate parts = text

theorem Splits.parts {parts : List Bytes} (h : Splits sep text parts) : Parts sep text parts := by
  induction h with
  | last hnone => exact .last hnone
  | more hfirst _ _ ih => exact .more hfirst ih

/-- Without the separator the first part would be as long as the greatest `size_t`. -/
theorem ofChars_minus (junk : ℕ → UInt8) (data : Bytes) (r : ℤ) (hr : toSize r = toSize (-1)) :
    ∀ str, ofChars junk data (toSize r) ≠ .ok str := by
  intro str h
  unfold ofChars copyOut at h
  have hsize : toSize r = 2 ^ 64 - 1 := by
    rw [hr]
    decide
  obtain ⟨src, hload, h⟩ := bind_eq_ok.mp h
  obtain ⟨block, hstore, -⟩ := bind_eq_ok.mp h
  rw [hsize] at hload hstore
  simp only [Int.toNat_zero] at hload
  unfold load at hload
  unfold store at hstore
  split_ifs at hload hstore with hin hfit
  obtain rfl := Except.ok.inj hload
  rw [length_malloc, length_window hin] at hfit
  unfold sizeBound at hfit
  omega

theorem split_right_iff (junk : ℕ → UInt8) (htext : (0 : UInt8) ∉ text) (hsep : (0 : UInt8) ∉ sep)
    (hne : sep ≠ []) (hlen : text.length < 2 ^ 63) :
    SplitsRight junk text sep ↔ first sep text ≠ none ∧ ∃ parts, Splits sep text parts := by
  constructor
  · rintro ⟨fuel, v, parts, h, hparts, hv, -⟩
    obtain ⟨r, hr, h⟩ := bind_eq_ok.mp h
    by_cases hminus : toSize r = toSize (-1)
    · cases fuel with
      | zero => cases h
      | succ fuel =>
        rw [splitLoop] at h
        obtain ⟨part, hpart, -⟩ := bind_eq_ok.mp h
        have hsize : toSize ((toSize r : ℤ) - (0 : ℕ)) = toSize r := by
          unfold toSize sizeBound
          omega
        rw [hsize] at hpart
        exact absurd hpart (ofChars_minus junk _ r hminus part)
    · have hstart : toSize r = (toSize r + 0) % sizeBound := by
        unfold toSize sizeBound
        omega
      rw [hstart] at h
      have hsplits := splits_of_splitLoop (v := []) htext hsep hne hlen (Nat.zero_le _) hr hminus h
        hparts hv
      exact ⟨hsplits.2, parts, hsplits.1⟩
  · rintro ⟨hfirst, parts, hsplits⟩
    obtain ⟨p, hp⟩ := Option.ne_none_iff_exists'.mp hfirst
    have hcomes : Comes sep text := by
      cases hsplits with
      | last _ hcomes => exact hcomes
      | more _ hcomes => exact hcomes
    have hle := first_le hp hne
    obtain ⟨fuel, hfound⟩ := exists_found htext hsep hlen (Nat.zero_le _) hcomes
    obtain ⟨fuel', vs, hvs, hloop⟩ := splitLoop_eq htext hsep hne hlen junk hsplits List.drop_zero
      (Nat.zero_le _) hp
    have hindex : firstIndex sep text = p := by rw [firstIndex, hp]
    refine ⟨max fuel fuel', vs, parts, ?_, hsplits.parts, hvs, hsplits.parts.join⟩
    have hfound' := hfound (max fuel fuel') (le_max_left _ _)
    rw [List.drop_zero, List.drop_zero, hindex] at hfound'
    have hsize : toSize (p : ℤ) = p + 0 := toSize_natCast (by unfold sizeBound; omega)
    change BM _ (text ++ [0]) (sep ++ [0]) >>= _ = _
    rw [hfound', ok_bind, hsize]
    exact hloop _ (le_max_right _ _) _ (le_max_right _ _) []

/-- Every search of a separator with at most two runs is right. -/
theorem splits_of_twoRuns {parts : List Bytes} (hruns : TwoRuns sep) (h : Parts sep text parts)
    (hlen : text.length + sep.length < 2 ^ 31) : Splits sep text parts := by
  induction h with
  | last hnone => exact .last hnone (comes_of_twoRuns hruns hlen) (roomy_of_lt (by omega))
  | more hfirst _ ih =>
    refine .more hfirst (comes_of_twoRuns hruns hlen) (ih ?_)
    rw [List.length_drop]
    omega

/-- The function is right exactly when the separator is in the string and every search for it is
right; with a separator of at most two runs, when it is in the string. -/
theorem split_iff (junk : ℕ → UInt8) (htext : (0 : UInt8) ∉ text) (hsep : (0 : UInt8) ∉ sep)
    (hne : sep ≠ []) (hlen : text.length < 2 ^ 63) :
    (SplitsRight junk text sep ↔ first sep text ≠ none ∧ ∃ parts, Splits sep text parts) ∧
      (TwoRuns sep → text.length + sep.length < 2 ^ 31 →
        (SplitsRight junk text sep ↔ first sep text ≠ none)) := by
  refine ⟨split_right_iff junk htext hsep hne hlen, ?_⟩
  intro hruns hshort
  rw [split_right_iff junk htext hsep hne hlen]
  obtain ⟨parts, hparts⟩ := exists_parts hne text
  exact ⟨fun h => h.1, fun h => ⟨h, parts, splits_of_twoRuns hruns hparts hshort⟩⟩

/-- The string `a;b` and the separator `;`. -/
theorem split_iff_semicolon :
    (SplitsRight (fun _ => 0) (bytes "a;b") (bytes ";") ↔
      first (bytes ";") (bytes "a;b") ≠ none ∧ ∃ parts, Splits (bytes ";") (bytes "a;b") parts) ∧
    (TwoRuns (bytes ";") → (bytes "a;b").length + (bytes ";").length < 2 ^ 31 →
      (SplitsRight (fun _ => 0) (bytes "a;b") (bytes ";") ↔
        first (bytes ";") (bytes "a;b") ≠ none)) :=
  split_iff (fun _ => 0) (by decide) (by decide) (by decide) (by decide)

/-- The string `a` is not given as its only part. -/
theorem not_splitsRight_a : ¬ SplitsRight (fun _ => 0) (bytes "a") (bytes ";") := by
  intro h
  have hfirst := ((split_right_iff (fun _ => 0) (by decide) (by decide) (by decide) (by decide)).mp h).1
  revert hfirst
  decide

end SStringView
end Sese.Text
