import Sese.Foundation.IntTypes
import Sese.Text.Conversions
import Sese.Text.FormatOption
import Mathlib.Data.Nat.Digits.Defs

/-!
# Integers as texts

`Number::toString`, `number2StringLength` and the layout of an integer in a placeholder, for
every integer type. The remainders and quotients are those of the language: they have the sign of
the dividend.
-/
namespace Sese.Text

open Foundation

namespace Number

def digitUp : Bytes := [48, 49, 50, 51, 52, 53, 54, 55, 56, 57, 65, 66, 67, 68, 69, 70]

def digitDown : Bytes := [48, 49, 50, 51, 52, 53, 54, 55, 56, 57, 97, 98, 99, 100, 101, 102]

/-- The loop of `toString`; what it has appended comes with `count`. A pass divides `number`, so
that as many passes as its amount, and one, are enough. -/
def toStringLoop (t : IntType) (radix : ℕ) (table : Bytes) :
    ℕ → ℤ → Bytes → ℕ → Except Fault (Bytes × ℕ)
  | 0, _, _, _ => .error .endlessLoop
  | fuel + 1, number, builder, count => do
    let ch ← readAt table (number.tmod radix)
    let number ← t.assign .intOverflow (number.tdiv radix)
    if number > 0 then toStringLoop t radix table fuel number (builder ++ [ch]) (count + 1)
    else return (builder ++ [ch], count + 1)

/-- The last `count` octets of the builder are reversed in the end. -/
def toString (t : IntType) (builder : Bytes) (number : ℤ) (radix : ℕ) (upperCase : Bool) :
    Except Fault Bytes := do
  let (builder, number) ←
    if number < 0 then do
      let number ← t.assign .intOverflow (-number)
      pure (builder ++ [45], number)
    else pure (builder, number)
  let table := if upperCase then digitUp else digitDown
  let (builder, count) ← toStringLoop t radix table (number.natAbs + 1) number builder 0
  let length := builder.length
  return builder.take (length - count) ++ (builder.drop (length - count)).reverse

end Number

/-- The loop of `number2StringLength`. -/
def numberLengthLoop (t : IntType) (radix : ℕ) : ℕ → ℤ → ℕ → Except Fault ℕ
  | 0, _, _ => .error .endlessLoop
  | fuel + 1, num, length => do
    let num ← t.assign .intOverflow (num.tdiv (t.convert radix))
    if num > 0 then numberLengthLoop t radix fuel num (length + 1) else return length + 1

/-- `number2StringLength`, for any integer type and radix. -/
def numberLength (t : IntType) (num : ℤ) (radix : ℕ) : Except Fault ℕ :=
  if num = 0 then .ok 1
  else do
    let (length, num) ←
      if num < 0 then do
        let num ← t.assign .intOverflow (num * -1)
        pure (1, num)
      else pure (0, num)
    numberLengthLoop t radix (num.natAbs + 1) num length

def formatOptionNumberFormatAlgin (t : IntType) (builder : Bytes) (opt : FormatOption) (number : ℤ)
    (radix : ℕ) (upperCase : Bool) : Except Fault Bytes := do
  let len ← numberLength t number radix
  if opt.wide ≤ len then Number.toString t builder number radix upperCase
  else
    let diff := opt.wide - len
    match opt.align with
    | .left =>
      let builder ← Number.toString t builder number radix upperCase
      return builder ++ List.replicate diff opt.wideChar
    | .right =>
      Number.toString t (builder ++ List.replicate diff opt.wideChar) number radix upperCase
    | .center =>
      let builder ← Number.toString t (builder ++ List.replicate (diff / 2) opt.wideChar) number
        radix upperCase
      return builder ++
        List.replicate (if diff % 2 = 1 then diff / 2 + 1 else diff / 2) opt.wideChar

/-- The radix is chosen by the extended type. -/
def formatOptionNumberFormat (t : IntType) (builder : Bytes) (opt : FormatOption) (number : ℤ) :
    Except Fault Bytes :=
  if opt.extType = 88 then formatOptionNumberFormatAlgin t builder opt number 16 true
  else if opt.extType = 120 then formatOptionNumberFormatAlgin t builder opt number 16 false
  else if opt.extType = 111 then formatOptionNumberFormatAlgin t builder opt number 8 true
  else if opt.extType = 98 then formatOptionNumberFormatAlgin t builder opt number 2 true
  else formatOptionNumberFormatAlgin t builder opt number 10 true

def digitChar (upperCase : Bool) (d : ℕ) : UInt8 :=
  if d < 10 then .ofNat (48 + d) else if upperCase then .ofNat (55 + d) else .ofNat (87 + d)

/-- The digits of a number, the last one first; zero has one digit. -/
def digitsOf (radix n : ℕ) : List ℕ := if n = 0 then [0] else Nat.digits radix n

/-- A sign for the negative integers, and the digits of the amount. -/
def canonical (radix : ℕ) (upperCase : Bool) (number : ℤ) : Bytes :=
  (if number < 0 then [45] else []) ++
    ((digitsOf radix number.natAbs).map (digitChar upperCase)).reverse

variable {t : IntType} {radix : ℕ} {upperCase : Bool}

theorem digitsOf_div {n : ℕ} (hradix : 2 ≤ radix) (hmore : 0 < n / radix) :
    digitsOf radix n = n % radix :: digitsOf radix (n / radix) := by
  have hn : n ≠ 0 := by
    rintro rfl
    simp at hmore
  rw [digitsOf, digitsOf, if_neg hn, if_neg (by omega), Nat.digits_def' (by omega) (by omega)]

theorem digitsOf_last {n : ℕ} (hradix : 2 ≤ radix) (hlast : n / radix = 0) :
    digitsOf radix n = [n % radix] := by
  have hlt : n < radix := by
    rcases Nat.div_eq_zero_iff.mp hlast with h | h
    · omega
    · exact h
  rw [digitsOf, Nat.mod_eq_of_lt hlt]
  split_ifs with h
  · rw [h]
  · rw [Nat.digits_of_lt radix n h hlt]

theorem readAt_table {n : ℕ} (hradix : 2 ≤ radix) (hradix' : radix ≤ 16) :
    readAt (if upperCase then Number.digitUp else Number.digitDown) ((n : ℤ).tmod radix) =
      .ok (digitChar upperCase (n % radix)) := by
  have hall : ∀ d < 16, readAt (if upperCase then Number.digitUp else Number.digitDown) (d : ℕ) =
      .ok (digitChar upperCase d) := by
    cases upperCase <;> decide
  have hmod : (n : ℤ).tmod radix = (n % radix : ℕ) := by
    rw [Int.tmod_eq_emod_of_nonneg (Int.natCast_nonneg n)]
    rfl
  rw [hmod]
  exact hall _ (lt_of_lt_of_le (Nat.mod_lt n (by omega)) hradix')

theorem tdiv_natCast (n radix : ℕ) : (n : ℤ).tdiv radix = (n / radix : ℕ) := by
  rw [Int.tdiv_eq_ediv_of_nonneg (Int.natCast_nonneg n)]
  rfl

theorem fits_div (radix : ℕ) {n : ℕ} (h : t.Fits n) : t.Fits (n / radix : ℕ) := by
  have hle : ((n / radix : ℕ) : ℤ) ≤ n := by exact_mod_cast Nat.div_le_self n radix
  exact ⟨(IntType.fits_zero t).1.trans (Int.natCast_nonneg _), hle.trans h.2⟩

theorem fits_radix {radix : ℕ} (hradix : radix ≤ 16) : t.Fits radix := by
  obtain ⟨bits, signed, hbits⟩ := t
  rcases hbits with rfl | rfl | rfl | rfl
  all_goals cases signed <;> simp [IntType.Fits, IntType.least, IntType.greatest] <;> omega

theorem toStringLoop_eq (hradix : 2 ≤ radix) (hradix' : radix ≤ 16) {fuel n : ℕ} (hfuel : n < fuel)
    (hfits : t.Fits n) (builder : Bytes) (count : ℕ) :
    Number.toStringLoop t radix (if upperCase then Number.digitUp else Number.digitDown) fuel n
        builder count =
      .ok (builder ++ (digitsOf radix n).map (digitChar upperCase),
        count + (digitsOf radix n).length) := by
  induction fuel generalizing n builder count with
  | zero => omega
  | succ fuel ih =>
    have hdiv := IntType.assign_of_fits Fault.intOverflow
      (fits_div radix hfits)
    simp only [Number.toStringLoop, readAt_table hradix hradix', tdiv_natCast, hdiv, ok_bind]
    by_cases hmore : 0 < n / radix
    · have hless : n / radix < n := Nat.div_lt_self (Nat.pos_of_ne_zero (by rintro rfl; simp at hmore))
        (by omega)
      rw [if_pos (by exact_mod_cast hmore), ih (by omega) (fits_div radix hfits), digitsOf_div hradix hmore]
      simp only [List.append_assoc, List.singleton_append, List.map_cons, List.length_cons]
      congr 2
      omega
    · have hzero : n / radix = 0 := Nat.le_zero.mp (not_lt.mp hmore)
      rw [if_neg (by exact_mod_cast hmore), digitsOf_last hradix hzero]
      rfl

theorem numberLengthLoop_eq (hradix : 2 ≤ radix) (hradix' : radix ≤ 16) {fuel n : ℕ}
    (hfuel : n < fuel) (hfits : t.Fits n) (length : ℕ) :
    numberLengthLoop t radix fuel n length = .ok (length + (digitsOf radix n).length) := by
  induction fuel generalizing n length with
  | zero => omega
  | succ fuel ih =>
    have hdiv := IntType.assign_of_fits Fault.intOverflow
      (fits_div radix hfits)
    simp only [numberLengthLoop, IntType.convert_of_fits (fits_radix hradix'), tdiv_natCast, hdiv,
      ok_bind]
    by_cases hmore : 0 < n / radix
    · have hless : n / radix < n := Nat.div_lt_self (Nat.pos_of_ne_zero (by rintro rfl; simp at hmore))
        (by omega)
      rw [if_pos (by exact_mod_cast hmore), ih (by omega) (fits_div radix hfits), digitsOf_div hradix hmore,
        List.length_cons]
      congr 1
      omega
    · have hzero : n / radix = 0 := Nat.le_zero.mp (not_lt.mp hmore)
      rw [if_neg (by exact_mod_cast hmore), digitsOf_last hradix hzero]
      rfl

theorem reverse_appended (builder digits : Bytes) :
    (builder ++ digits).take ((builder ++ digits).length - digits.length) ++
      ((builder ++ digits).drop ((builder ++ digits).length - digits.length)).reverse =
        builder ++ digits.reverse := by
  rw [List.length_append, Nat.add_sub_cancel, List.take_left, List.drop_left]

theorem toString_amount (upperCase : Bool) (hradix : 2 ≤ radix) (hradix' : radix ≤ 16) {n : ℕ} (hfits : t.Fits n)
    (builder : Bytes) :
    (do
      let (builder, count) ← Number.toStringLoop t radix
        (if upperCase then Number.digitUp else Number.digitDown) ((n : ℤ).natAbs + 1) n builder 0
      return builder.take (builder.length - count) ++
        (builder.drop (builder.length - count)).reverse : Except Fault Bytes) =
      .ok (builder ++ ((digitsOf radix n).map (digitChar upperCase)).reverse) := by
  rw [toStringLoop_eq hradix hradix' (by simp) hfits, ok_bind, Nat.zero_add]
  have h := reverse_appended builder ((digitsOf radix n).map (digitChar upperCase))
  rw [List.length_map] at h
  simp only [h, pure_eq_ok]

variable {number : ℤ}

theorem fits_natAbs (hfits : t.Fits number) (hmin : ¬ t.IsMin number) : t.Fits (number.natAbs : ℕ) := by
  by_cases hneg : number < 0
  · have h := IntType.fits_neg hfits hneg hmin
    rwa [show -number = (number.natAbs : ℕ) by omega] at h
  · rwa [show ((number.natAbs : ℕ) : ℤ) = number by omega]

theorem toString_eq (upperCase : Bool) (hradix : 2 ≤ radix) (hradix' : radix ≤ 16) (hfits : t.Fits number)
    (hmin : ¬ t.IsMin number) (builder : Bytes) :
    Number.toString t builder number radix upperCase =
      .ok (builder ++ canonical radix upperCase number) := by
  have hamount := toString_amount upperCase hradix hradix' (fits_natAbs hfits hmin)
  unfold Number.toString canonical
  by_cases hneg : number < 0
  · have hassign := IntType.assign_of_fits Fault.intOverflow
      (IntType.fits_neg hfits hneg hmin)
    rw [show -number = (number.natAbs : ℕ) by omega] at hassign
    simp only [if_pos hneg, show -number = (number.natAbs : ℕ) by omega, hassign, ok_bind, pure_eq_ok]
    rw [← List.append_assoc]
    exact hamount (builder ++ [45])
  · have hnat : number = (number.natAbs : ℕ) := by omega
    simp only [if_neg hneg, pure_eq_ok, ok_bind, List.nil_append]
    rw [← hamount builder, ← hnat]
    rfl

theorem numberLength_eq (upperCase : Bool) (hradix : 2 ≤ radix) (hradix' : radix ≤ 16) (hfits : t.Fits number)
    (hmin : ¬ t.IsMin number) :
    numberLength t number radix = .ok (canonical radix upperCase number).length := by
  have hloop := numberLengthLoop_eq (t := t) hradix hradix' (Nat.lt_succ_self _)
    (fits_natAbs hfits hmin)
  unfold numberLength canonical
  simp only [List.length_append, List.length_reverse, List.length_map]
  by_cases hzero : number = 0
  · subst hzero
    rfl
  · rw [if_neg hzero]
    by_cases hneg : number < 0
    · have hassign := IntType.assign_of_fits Fault.intOverflow
        (IntType.fits_neg hfits hneg hmin)
      rw [show -number = (number.natAbs : ℕ) by omega] at hassign
      simp only [if_pos hneg, show number * -1 = (number.natAbs : ℕ) by omega, hassign, ok_bind,
        pure_eq_ok]
      exact hloop 1
    · have hnat : number = (number.natAbs : ℕ) := by omega
      simp only [if_neg hneg, pure_eq_ok, ok_bind, List.length_nil]
      rw [← hloop 0, ← hnat]

theorem length_canonical_min (upperCase : Bool) (hradix : 2 ≤ radix) (hradix' : radix ≤ 16)
    (hmin : t.IsMin number) :
    3 ≤ (canonical radix upperCase number).length := by
  have hamount : 128 ≤ number.natAbs := by
    have := hmin.neg
    omega
  have hneg : number < 0 := by
    have := hmin.neg
    omega
  have hquotient : 1 < number.natAbs / radix :=
    calc 1 < 128 / 16 := by decide
      _ ≤ number.natAbs / radix := Nat.div_le_div hamount hradix' (by omega)
  have hrest : 0 < (digitsOf radix (number.natAbs / radix)).length := by
    rw [digitsOf, if_neg (by omega)]
    exact List.length_pos_of_ne_nil (Nat.digits_ne_nil_iff_ne_zero.mpr (by omega))
  simp only [canonical, if_pos hneg, digitsOf_div hradix (by omega : 0 < number.natAbs / radix),
    List.length_append, List.length_reverse, List.length_map, List.length_cons, List.length_nil]
  omega

/-- A pass that divides a negative number is the last one. -/
theorem tdiv_nonpos (radix : ℕ) (hneg : number ≤ 0) : ¬ number.tdiv radix > 0 := by
  have h := Int.tdiv_nonneg (Int.neg_nonneg_of_nonpos hneg) (Int.natCast_nonneg radix)
  rw [Int.neg_tdiv] at h
  omega

theorem fits_tdiv (radix : ℕ) (hfits : t.Fits number) (hneg : number ≤ 0) : t.Fits (number.tdiv radix) := by
  have hle := tdiv_nonpos radix hneg
  have hlow : number ≤ number.tdiv radix := by
    have h := Nat.div_le_self number.natAbs radix
    have hdiv : (-number).tdiv radix = (number.natAbs / radix : ℕ) := by
      rw [← tdiv_natCast]
      congr 1
      omega
    rw [Int.neg_tdiv] at hdiv
    generalize number.natAbs / radix = quotient at h hdiv
    omega
  have hhigh := (IntType.fits_zero t).2
  exact ⟨hfits.1.trans hlow, by omega⟩

theorem numberLength_min (hradix : 2 ≤ radix) (hradix' : radix ≤ 16) (hfits : t.Fits number)
    (hmin : t.IsMin number) :
    numberLength t number radix ≠ .ok (canonical radix upperCase number).length := by
  have hlength := length_canonical_min upperCase hradix hradix' hmin
  have hneg : number < 0 := by
    have := hmin.neg
    omega
  have hdiv := IntType.assign_of_fits Fault.intOverflow
    (fits_tdiv radix hfits hneg.le)
  intro h
  simp only [numberLength, if_neg hneg.ne, if_pos hneg, mul_neg_one,
    IntType.assign_neg_min hmin] at h
  split_ifs at h with hbits
  · simp only [ok_bind, pure_eq_ok, numberLengthLoop, IntType.convert_of_fits (fits_radix hradix'),
      hdiv, if_neg (tdiv_nonpos radix hneg.le), Except.ok.injEq] at h
    omega
  · cases h

/-- The integer is written in its canonical representation, the length that is told is that of the
representation, and with any options the placeholder takes as many octets as the greater of the
width and that length. -/
structure Exact (t : IntType) (number : ℤ) (radix : ℕ) (upperCase : Bool) : Prop where
  text : ∀ builder, Number.toString t builder number radix upperCase =
    .ok (builder ++ canonical radix upperCase number)
  length : numberLength t number radix = .ok (canonical radix upperCase number).length
  emitted : ∀ opt builder, ∃ octets,
    formatOptionNumberFormatAlgin t builder opt number radix upperCase = .ok (builder ++ octets) ∧
      octets.length = max opt.wide (canonical radix upperCase number).length

theorem emitted_of_text (htext : ∀ builder, Number.toString t builder number radix upperCase =
      .ok (builder ++ canonical radix upperCase number))
    (hlength : numberLength t number radix = .ok (canonical radix upperCase number).length)
    (opt : FormatOption) (builder : Bytes) :
    ∃ octets, formatOptionNumberFormatAlgin t builder opt number radix upperCase =
        .ok (builder ++ octets) ∧
      octets.length = max opt.wide (canonical radix upperCase number).length := by
  simp only [formatOptionNumberFormatAlgin, hlength, ok_bind]
  by_cases hwide : opt.wide ≤ (canonical radix upperCase number).length
  · rw [if_pos hwide]
    exact ⟨_, htext builder, by omega⟩
  · rw [if_neg hwide]
    cases opt.align with
    | left =>
      refine ⟨canonical radix upperCase number ++ List.replicate
        (opt.wide - (canonical radix upperCase number).length) opt.wideChar, ?_, ?_⟩
      · simp only [htext, ok_bind, pure_eq_ok, List.append_assoc]
      · rw [List.length_append, List.length_replicate]
        omega
    | right =>
      refine ⟨List.replicate (opt.wide - (canonical radix upperCase number).length) opt.wideChar ++
        canonical radix upperCase number, ?_, ?_⟩
      · simp only [htext, List.append_assoc]
      · rw [List.length_append, List.length_replicate]
        omega
    | center =>
      generalize hdiff : opt.wide - (canonical radix upperCase number).length = diff
      refine ⟨List.replicate (diff / 2) opt.wideChar ++ (canonical radix upperCase number ++
        List.replicate (if diff % 2 = 1 then diff / 2 + 1 else diff / 2) opt.wideChar), ?_, ?_⟩
      · simp only [htext, ok_bind, pure_eq_ok, List.append_assoc]
      · simp only [List.length_append, List.length_replicate]
        split_ifs <;> omega

/-- Every value but the most negative one of a signed type. -/
theorem exact_iff (t : IntType) {number : ℤ} {radix : ℕ} (upperCase : Bool) (hfits : t.Fits number)
    (hradix : 2 ≤ radix) (hradix' : radix ≤ 16) :
    Exact t number radix upperCase ↔ ¬ t.IsMin number := by
  constructor
  · intro h hmin
    exact numberLength_min hradix hradix' hfits hmin h.length
  · intro hmin
    have htext := toString_eq upperCase hradix hradix' hfits hmin
    have hlength := numberLength_eq upperCase hradix hradix' hfits hmin
    exact ⟨htext, hlength, emitted_of_text htext hlength⟩

def int8 : IntType := ⟨8, true, by decide⟩

theorem exact_iff_minus_127 : Exact int8 (-127) 10 true ↔ ¬ int8.IsMin (-127) :=
  exact_iff int8 true (by decide) (by decide) (by decide)

/-- `number2StringLength` tells 2 for the four characters of -128, and the index of its last digit
is -8. -/
theorem not_exact_minus_128 : ¬ Exact int8 (-128) 10 true := by
  intro h
  have hlength := h.length
  revert hlength
  decide

end Sese.Text
