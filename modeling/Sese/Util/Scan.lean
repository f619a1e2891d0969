import Mathlib.Data.List.TakeWhile
import Sese.Foundation.Outcome
import Sese.Util.Bytes

/-!
# Numbers in texts

`std::stoll`, `sscanf` and `std::to_string`, as far as the library uses them. What a
conversion throws leaves functions that are `noexcept`.
-/
namespace Sese

open Foundation

def isspace (b : UInt8) : Bool := b = 32 ∨ 9 ≤ b.toNat ∧ b.toNat ≤ 13

def isdigit (b : UInt8) : Bool := 48 ≤ b.toNat ∧ b.toNat ≤ 57

def digitsValue (digits : Bytes) : ℕ := digits.foldl (fun n b => 10 * n + (b.toNat - 48)) 0

def hasSign (s : Bytes) : Bool := s.head? = some 45 ∨ s.head? = some 43

/-- A sign, if there is one, and digits: the integer at the start of a text, of at most `width`
octets, and the text behind it. -/
def scanInt (width : ℕ) (s : Bytes) : Option (ℤ × Bytes) :=
  let field := s.take width
  let sign := if hasSign field then 1 else 0
  let digits := (field.drop sign).takeWhile isdigit
  if digits = [] then none
  else
    let n : ℤ := digitsValue digits
    some (if field.head? = some 45 then -n else n, s.drop (sign + digits.length))

/-- `std::stoll`, which throws if there is no number or if it is out of range. -/
def stoll (text : Bytes) : Except Fault ℤ :=
  let s := (cstr text).dropWhile isspace
  match scanInt s.length s with
  | none => .error .terminate
  | some (n, _) => if -2 ^ 63 ≤ n ∧ n < 2 ^ 63 then .ok n else .error .terminate

/-- `std::to_string` of a signed integer. -/
def signedDecimal (i : ℤ) : Bytes := if i < 0 then 45 :: toDecimal i.natAbs else toDecimal i.natAbs

/-- What a format string of `sscanf` is made of. -/
inductive Directive
  | blank
  | octet (b : UInt8)
  /-- `%*ns`. -/
  | skip (width : ℕ)
  /-- `%nd`. -/
  | int (width : ℕ)
  deriving DecidableEq

/-- `sscanf`: the integers that are assigned. It stops at the first directive that fails. -/
def sscanf : List Directive → Bytes → List ℤ
  | [], _ => []
  | .blank :: format, s => sscanf format (s.dropWhile isspace)
  | .octet b :: format, s => if s.head? = some b then sscanf format s.tail else []
  | .skip width :: format, s =>
    let s := s.dropWhile isspace
    let word := (s.takeWhile fun b => !isspace b).take width
    if word = [] then [] else sscanf format (s.drop word.length)
  | .int width :: format, s =>
    match scanInt width (s.dropWhile isspace) with
    | none => []
    | some (n, s) => n :: sscanf format s

def digit (n : ℕ) : UInt8 := .ofNat (48 + n)

theorem toDecimal_eq (n : ℕ) :
    toDecimal n = if n < 10 then [digit n] else toDecimal (n / 10) ++ [digit (n % 10)] := by
  have hchars : ∀ n, toDecimal n = (Nat.toDigits 10 n).flatMap String.utf8EncodeChar := by
    intro n
    change (Nat.repr n).toUTF8.data.toList = _
    unfold Nat.repr
    simp [String.ofList, List.utf8Encode]
  have hdigit : ∀ n < 10, String.utf8EncodeChar (Nat.digitChar n) = [digit n] := by decide
  rw [hchars, hchars, Nat.toDigits_eq_if (by decide)]
  split_ifs with h
  · simp [hdigit n h]
  · simp [hdigit (n % 10) (Nat.mod_lt n (by decide))]

theorem isdigit_digit {n : ℕ} (h : n < 10) : isdigit (digit n) := by
  have hall : ∀ n < 10, isdigit (digit n) = true := by decide
  exact hall n h

theorem toNat_digit {n : ℕ} (h : n < 10) : (digit n).toNat - 48 = n := by
  have hall : ∀ n < 10, (digit n).toNat - 48 = n := by decide
  exact hall n h

theorem digitsValue_append (digits : Bytes) (b : UInt8) :
    digitsValue (digits ++ [b]) = 10 * digitsValue digits + (b.toNat - 48) := by
  rw [digitsValue, List.foldl_append]
  rfl

theorem toDecimal_ne_nil (n : ℕ) : toDecimal n ≠ [] := by
  rw [toDecimal_eq]
  split_ifs
  · exact List.cons_ne_nil _ _
  · simp

theorem isdigit_toDecimal (n : ℕ) : ∀ b ∈ toDecimal n, isdigit b := by
  induction n using Nat.strong_induction_on with
  | _ n ih =>
    intro b hb
    rw [toDecimal_eq] at hb
    split_ifs at hb with h
    · rw [List.mem_singleton.mp hb]
      exact isdigit_digit h
    · rcases List.mem_append.mp hb with hb | hb
      · exact ih (n / 10) (by omega) b hb
      · rw [List.mem_singleton.mp hb]
        exact isdigit_digit (Nat.mod_lt n (by decide))

theorem digitsValue_toDecimal (n : ℕ) : digitsValue (toDecimal n) = n := by
  induction n using Nat.strong_induction_on with
  | _ n ih =>
    rw [toDecimal_eq]
    split_ifs with h
    · change 10 * 0 + ((digit n).toNat - 48) = n
      rw [toNat_digit h]
      omega
    · rw [digitsValue_append, ih (n / 10) (by omega), toNat_digit (Nat.mod_lt n (by decide))]
      omega

theorem scanInt_digits {digits rest : Bytes} {width : ℕ} (hne : digits ≠ [])
    (hdigits : ∀ b ∈ digits, isdigit b) (hwidth : digits.length ≤ width)
    (hend : digits.length = width ∨ ∀ b ∈ rest.head?, ¬ isdigit b) :
    scanInt width (digits ++ rest) = some ((digitsValue digits : ℤ), rest) := by
  obtain ⟨b, digits, rfl⟩ := List.exists_cons_of_ne_nil hne
  have hb := hdigits b List.mem_cons_self
  have h45 : b ≠ 45 := by
    rintro rfl
    exact absurd hb (by decide)
  have h43 : b ≠ 43 := by
    rintro rfl
    exact absurd hb (by decide)
  obtain ⟨k, rfl⟩ := Nat.exists_eq_add_of_le hwidth
  have hfield : ((b :: digits) ++ rest).take ((b :: digits).length + k) =
      (b :: digits) ++ rest.take k := List.take_length_add_append k
  have htail : (rest.take k).takeWhile isdigit = [] := by
    rcases hend with hk | hrest
    · obtain rfl : k = 0 := by omega
      rfl
    · cases rest with
      | nil => simp
      | cons c rest =>
        cases k with
        | zero => rfl
        | succ k =>
          rw [List.take_succ_cons, List.takeWhile_cons_of_neg (hrest c rfl)]
  have hsign : hasSign ((b :: digits) ++ rest.take k) = false := by
    simp [hasSign, h45, h43]
  have hscan : (((b :: digits) ++ rest.take k).drop 0).takeWhile isdigit = b :: digits := by
    rw [List.drop_zero, List.takeWhile_append_of_pos hdigits, htail, List.append_nil]
  unfold scanInt
  simp only [hfield, hsign, if_false, Bool.false_eq_true]
  rw [hscan, if_neg (List.cons_ne_nil _ _), Nat.zero_add, List.drop_left]
  simp [h45]

def signedValue (sign digits : Bytes) : ℤ :=
  if sign = [45] then -(digitsValue digits : ℤ) else digitsValue digits

/-- A sign, if there is one, and the digits that a text starts with. -/
structure Numeral (sign digits rest : Bytes) : Prop where
  sign : sign = [] ∨ sign = [43] ∨ sign = [45]
  ne_nil : digits ≠ []
  digits : ∀ b ∈ digits, isdigit b
  rest : ∀ b ∈ rest.head?, ¬ isdigit b

/-- A text that has an integer of 64 bits behind its blanks. -/
def Numeric (text : Bytes) : Prop :=
  ∃ blanks sign digits rest, cstr text = blanks ++ (sign ++ (digits ++ rest)) ∧
    (∀ b ∈ blanks, isspace b) ∧ Numeral sign digits rest ∧
    -2 ^ 63 ≤ signedValue sign digits ∧ signedValue sign digits < 2 ^ 63

theorem dropWhile_of_head {p : UInt8 → Bool} {text : Bytes} (h : ∀ b ∈ text.head?, ¬ p b) :
    text.dropWhile p = text := by
  cases text with
  | nil => rfl
  | cons b text => exact List.dropWhile_cons_of_neg (h b rfl)

theorem dropWhile_append_of_head {p : UInt8 → Bool} {front rest : Bytes} (hfront : ∀ b ∈ front, p b)
    (hrest : ∀ b ∈ rest.head?, ¬ p b) : (front ++ rest).dropWhile p = rest := by
  rw [List.dropWhile_append_of_pos hfront]
  exact dropWhile_of_head hrest

theorem takeWhile_append_of_head {p : UInt8 → Bool} {front rest : Bytes} (hfront : ∀ b ∈ front, p b)
    (hrest : ∀ b ∈ rest.head?, ¬ p b) : (front ++ rest).takeWhile p = front := by
  rw [List.takeWhile_append_of_pos hfront]
  cases rest with
  | nil => simp
  | cons b rest => rw [List.takeWhile_cons_of_neg (hrest b rfl), List.append_nil]

theorem head_dropWhile {p : UInt8 → Bool} (text : Bytes) :
    ∀ b ∈ (text.dropWhile p).head?, ¬ p b := by
  intro b hb
  have hfalse := List.head?_dropWhile_not p text
  rw [Option.mem_def.mp hb] at hfalse
  simpa using hfalse

theorem not_isspace_of_isdigit {b : UInt8} (h : isdigit b) : ¬ isspace b := by
  simp only [isdigit, isspace, decide_eq_true_eq] at h ⊢
  rintro (rfl | hspace)
  · simp at h
  · omega

namespace Numeral

variable {sign digits rest : Bytes}

theorem head_not_space (h : Numeral sign digits rest) :
    ∀ b ∈ (sign ++ (digits ++ rest)).head?, ¬ isspace b := by
  obtain ⟨c, digits, rfl⟩ := List.exists_cons_of_ne_nil h.ne_nil
  intro b hb
  rcases h.sign with rfl | rfl | rfl
  · obtain rfl : c = b := by simpa using hb
    exact not_isspace_of_isdigit (h.digits c List.mem_cons_self)
  · obtain rfl : 43 = b := by simpa using hb
    decide
  · obtain rfl : 45 = b := by simpa using hb
    decide

theorem hasSign_iff (h : Numeral sign digits rest) :
    hasSign (sign ++ (digits ++ rest)) = decide (sign ≠ []) := by
  obtain ⟨c, digits, rfl⟩ := List.exists_cons_of_ne_nil h.ne_nil
  have hc := h.digits c List.mem_cons_self
  rcases h.sign with rfl | rfl | rfl
  · have h45 : c ≠ 45 := by
      rintro rfl
      exact absurd hc (by decide)
    have h43 : c ≠ 43 := by
      rintro rfl
      exact absurd hc (by decide)
    simp [hasSign, h45, h43]
  · simp [hasSign]
  · simp [hasSign]

theorem head_minus_iff (h : Numeral sign digits rest) :
    (sign ++ (digits ++ rest)).head? = some 45 ↔ sign = [45] := by
  obtain ⟨c, digits, rfl⟩ := List.exists_cons_of_ne_nil h.ne_nil
  have hc := h.digits c List.mem_cons_self
  rcases h.sign with rfl | rfl | rfl
  · have h45 : c ≠ 45 := by
      rintro rfl
      exact absurd hc (by decide)
    simp [h45]
  · simp
  · simp

theorem scanInt_eq (h : Numeral sign digits rest) {width : ℕ}
    (hwidth : (sign ++ (digits ++ rest)).length ≤ width) :
    scanInt width (sign ++ (digits ++ rest)) = some (signedValue sign digits, rest) := by
  have hlen : (if hasSign (sign ++ (digits ++ rest)) then 1 else 0) = sign.length := by
    rw [h.hasSign_iff]
    rcases h.sign with rfl | rfl | rfl <;> rfl
  have hscan : ((sign ++ (digits ++ rest)).drop sign.length).takeWhile isdigit = digits := by
    rw [List.drop_left]
    exact takeWhile_append_of_head h.digits h.rest
  have hrest : (sign ++ (digits ++ rest)).drop (sign.length + digits.length) = rest := by
    rw [← List.append_assoc, ← List.length_append, List.drop_left]
  unfold scanInt
  rw [List.take_of_length_le hwidth]
  simp only [hlen, hscan, hrest, if_neg h.ne_nil, h.head_minus_iff]
  rfl

end Numeral

theorem signOf_eq (s : Bytes) :
    (hasSign s = false ∧ s.head? ≠ some 45) ∨
      ∃ c text, s = c :: text ∧ hasSign s = true ∧ ([c] = [43] ∨ [c] = [45]) := by
  cases s with
  | nil => exact .inl ⟨rfl, by simp⟩
  | cons c text =>
    by_cases hsign : hasSign (c :: text)
    · refine .inr ⟨c, text, rfl, hsign, ?_⟩
      simp only [hasSign, List.head?_cons, Option.some.injEq, decide_eq_true_eq] at hsign
      simpa [or_comm] using hsign
    · rw [Bool.not_eq_true] at hsign
      refine .inl ⟨hsign, ?_⟩
      simp only [hasSign, decide_eq_false_iff_not, not_or] at hsign
      exact hsign.1

theorem numeral_of_scanInt {s rest : Bytes} {n : ℤ} (h : scanInt s.length s = some (n, rest)) :
    ∃ sign digits rest, s = sign ++ (digits ++ rest) ∧ Numeral sign digits rest ∧
      n = signedValue sign digits := by
  unfold scanInt at h
  rw [List.take_length] at h
  rcases signOf_eq s with ⟨hsign, hhead⟩ | ⟨c, text, rfl, hsign, hc⟩
  · simp only [hsign, Bool.false_eq_true, if_false, List.drop_zero, if_neg hhead] at h
    split_ifs at h with hne
    simp only [Option.some.injEq, Prod.mk.injEq] at h
    refine ⟨[], s.takeWhile isdigit, s.dropWhile isdigit, ?_, ⟨.inl rfl, hne, ?_, ?_⟩, h.1.symm⟩
    · exact List.takeWhile_append_dropWhile.symm
    · exact fun b hb => List.mem_takeWhile_imp hb
    · exact head_dropWhile s
  · simp only [hsign, if_true, List.drop_one, List.tail_cons, List.head?_cons] at h
    split_ifs at h with hne hminus
    all_goals
      simp only [Option.some.injEq, Prod.mk.injEq] at h hminus
      refine ⟨[c], text.takeWhile isdigit, text.dropWhile isdigit, ?_,
        ⟨.inr hc, hne, ?_, head_dropWhile text⟩, ?_⟩
      · exact congrArg (c :: ·) List.takeWhile_append_dropWhile.symm
      · exact fun b hb => List.mem_takeWhile_imp hb
      · rw [← h.1, signedValue]
        simp [hminus]

theorem stoll_numeral {sign digits : Bytes} (h : Numeral sign digits []) (hcstr : (0 : UInt8) ∉ digits)
    (hrange : -2 ^ 63 ≤ signedValue sign digits ∧ signedValue sign digits < 2 ^ 63) :
    stoll (sign ++ digits) = .ok (signedValue sign digits) := by
  have hsign : (0 : UInt8) ∉ sign := by
    rcases h.sign with rfl | rfl | rfl <;> decide
  have htext : cstr (sign ++ digits) = sign ++ digits := by
    apply cstr_eq_self
    rw [List.mem_append, not_or]
    exact ⟨hsign, hcstr⟩
  have hscan := h.scanInt_eq le_rfl
  have hspace := h.head_not_space
  rw [List.append_nil] at hscan hspace
  unfold stoll
  simp only [htext, dropWhile_of_head hspace, hscan, if_pos hrange]

theorem numeral_toDecimal (n : ℕ) : Numeral [] (toDecimal n) [] where
  sign := .inl rfl
  ne_nil := toDecimal_ne_nil n
  digits := isdigit_toDecimal n
  rest := by simp

theorem not_mem_toDecimal {b : UInt8} (hb : ¬ isdigit b) (n : ℕ) : b ∉ toDecimal n :=
  fun h => hb (isdigit_toDecimal n b h)

theorem head_toDecimal (n : ℕ) : ∀ b ∈ (toDecimal n).head?, isdigit b :=
  fun b hb => isdigit_toDecimal n b (List.mem_of_head? hb)

theorem stoll_toDecimal {n : ℕ} (h : n < 2 ^ 63) : stoll (toDecimal n) = .ok n := by
  have hcstr : cstr (toDecimal n) = toDecimal n :=
    cstr_eq_self (not_mem_toDecimal (by decide) n)
  have hdrop : (toDecimal n).dropWhile isspace = toDecimal n :=
    dropWhile_of_head fun b hb => not_isspace_of_isdigit (head_toDecimal n b hb)
  have hscan := (numeral_toDecimal n).scanInt_eq le_rfl
  rw [List.nil_append, List.append_nil] at hscan
  have hvalue : signedValue [] (toDecimal n) = n := by
    rw [signedValue, if_neg (by decide), digitsValue_toDecimal]
  simp only [stoll, hcstr, hdrop, hscan, hvalue]
  rw [if_pos]
  omega

theorem signedDecimal_eq (i : ℤ) : ∃ sign, signedDecimal i = sign ++ toDecimal i.natAbs ∧
    Numeral sign (toDecimal i.natAbs) [] ∧ signedValue sign (toDecimal i.natAbs) = i := by
  have hdigits := numeral_toDecimal i.natAbs
  by_cases hi : i < 0
  · refine ⟨[45], by rw [signedDecimal, if_pos hi]; rfl, ⟨.inr (.inr rfl), hdigits.ne_nil,
      hdigits.digits, hdigits.rest⟩, ?_⟩
    rw [signedValue, if_pos rfl, digitsValue_toDecimal]
    omega
  · refine ⟨[], by rw [signedDecimal, if_neg hi]; rfl, hdigits, ?_⟩
    rw [signedValue, if_neg (by decide), digitsValue_toDecimal]
    omega

/-- Every integer of 64 bits is read back from its text. -/
theorem stoll_signedDecimal {i : ℤ} (h : -2 ^ 63 ≤ i ∧ i < 2 ^ 63) : stoll (signedDecimal i) = .ok i := by
  obtain ⟨sign, htext, hnumeral, hvalue⟩ := signedDecimal_eq i
  have hstoll := stoll_numeral hnumeral (not_mem_toDecimal (by decide) _) (by rw [hvalue]; exact h)
  rw [htext, hstoll, hvalue]

theorem toInteger_digits {blanks digits rest : Bytes} (hblanks : ∀ b ∈ blanks, isspace b)
    (hne : digits ≠ []) (hdigits : ∀ b ∈ digits, isdigit b) (hrest : ∀ b ∈ rest.head?, ¬ isdigit b)
    (hnul : (0 : UInt8) ∉ rest) :
    toInteger (blanks ++ (digits ++ rest)) = min (digitsValue digits : ℤ) (2 ^ 63 - 1) := by
  obtain ⟨d, ds, rfl⟩ := List.exists_cons_of_ne_nil hne
  have hd := hdigits d List.mem_cons_self
  have hcstr : cstr (blanks ++ (d :: ds ++ rest)) = blanks ++ (d :: ds ++ rest) := by
    apply cstr_eq_self
    simp only [List.mem_append, not_or]
    refine ⟨fun h => ?_, fun h => ?_, hnul⟩
    · exact absurd (hblanks 0 h) (by decide)
    · exact absurd (hdigits 0 h) (by decide)
  have hdrop : (blanks ++ (d :: ds ++ rest)).dropWhile
      (fun b => b = 32 ∨ (9 ≤ b.toNat ∧ b.toNat ≤ 13)) = d :: ds ++ rest := by
    refine dropWhile_append_of_head hblanks fun b hb => ?_
    obtain rfl : d = b := by simpa using hb
    exact not_isspace_of_isdigit hd
  have htake : (d :: ds ++ rest).takeWhile (fun b => 48 ≤ b.toNat ∧ b.toNat ≤ 57) = d :: ds :=
    takeWhile_append_of_head hdigits hrest
  have hhead : ∀ b : UInt8, ¬ isdigit b → (d :: ds ++ rest).head? ≠ some b := by
    intro b hb heq
    obtain rfl : d = b := by simpa using heq
    exact hb hd
  simp only [toInteger, hcstr, hdrop, hhead 45 (by decide), hhead 43 (by decide), or_self, if_false,
    htake]
  rfl

theorem toInteger_of_digits {digits : Bytes} (hne : digits ≠ []) (hdigits : ∀ b ∈ digits, isdigit b) :
    toInteger digits = min (digitsValue digits : ℤ) (2 ^ 63 - 1) := by
  have hvalue : toInteger ([] ++ (digits ++ [])) = _ :=
    toInteger_digits (List.forall_mem_nil _) hne hdigits (by simp) List.not_mem_nil
  rwa [List.nil_append, List.append_nil] at hvalue

theorem toInteger_toDecimal {n : ℕ} (h : n < 2 ^ 63) : toInteger (toDecimal n) = n := by
  rw [toInteger_of_digits (toDecimal_ne_nil n) (isdigit_toDecimal n), digitsValue_toDecimal]
  omega

theorem returns_stoll_iff (text : Bytes) : Returns (stoll text) ↔ Numeric text := by
  constructor
  · rintro ⟨n, h⟩
    unfold stoll at h
    dsimp only at h
    split at h
    case h_1 => cases h
    case h_2 n₀ rest hscan =>
      obtain ⟨sign, digits, rest, hs, hnumeral, rfl⟩ := numeral_of_scanInt hscan
      split_ifs at h with hrange
      refine ⟨(cstr text).takeWhile isspace, sign, digits, rest, ?_, ?_, hnumeral, hrange⟩
      · rw [← hs]
        exact List.takeWhile_append_dropWhile.symm
      · exact fun b hb => List.mem_takeWhile_imp hb
  · rintro ⟨blanks, sign, digits, rest, htext, hblanks, hnumeral, hrange⟩
    have hs : (cstr text).dropWhile isspace = sign ++ (digits ++ rest) := by
      rw [htext]
      exact dropWhile_append_of_head hblanks hnumeral.head_not_space
    refine ⟨signedValue sign digits, ?_⟩
    unfold stoll
    simp only [hs, hnumeral.scanInt_eq le_rfl, if_pos hrange]

end Sese
