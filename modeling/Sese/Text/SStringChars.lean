import Sese.Text.SString

/-!
# UTF-8 strings and code points

What the functions of `sstr` make of the encodings of characters. A string is valid when it is
the concatenation of the encodings of its characters. It comes back from its code points, and a
loop over it visits them, if `getUTF8SizeFromUnicodeChar` knows the length of every one of them,
as it does up to U+7FFFF, and the string is short enough for `index`, which is an `int`.
-/
namespace Sese.Text

open Foundation String

theorem masked_shiftRight (v i k : ℕ) : ((2 ^ k - 1) <<< i &&& v) >>> i = v / 2 ^ i % 2 ^ k := by
  rw [Nat.shiftRight_and_distrib, Nat.shiftLeft_shiftRight, Nat.and_comm,
    Nat.and_two_pow_sub_one_eq_mod, Nat.shiftRight_eq_div_pow]

theorem or_continuation {x : ℕ} (h : x < 64) : 0b10000000 ||| x = x + 0x80 := by
  revert h
  revert x
  decide

theorem continuation_and {x : ℕ} (h : x < 64) : (UInt8.ofNat (x + 0x80)).toNat &&& 0b00111111 = x := by
  revert h
  revert x
  decide

theorem or_field (x : ℕ) {y : ℕ} (h : y < 64) : x <<< 6 ||| y = x * 64 + y := by
  rw [← Nat.shiftLeft_add_eq_or_of_lt h, Nat.shiftLeft_eq]

theorem or_fields (x : ℕ) {y z : ℕ} (hy : y < 64) (hz : z < 64) :
    x <<< 12 ||| y <<< 6 ||| z = x * 4096 + y * 64 + z := by
  rw [show x <<< 12 = (x <<< 6) <<< 6 by rw [← Nat.shiftLeft_add], ← Nat.shiftLeft_or_distrib,
    or_field x hy, or_field _ hz]
  omega

theorem or_all_fields (x : ℕ) {y z w : ℕ} (hy : y < 64) (hz : z < 64) (hw : w < 64) :
    x <<< 18 ||| y <<< 12 ||| z <<< 6 ||| w = x * 262144 + y * 4096 + z * 64 + w := by
  rw [show x <<< 18 = (x <<< 12) <<< 6 by rw [← Nat.shiftLeft_add],
    show y <<< 12 = (y <<< 6) <<< 6 by rw [← Nat.shiftLeft_add], ← Nat.shiftLeft_or_distrib,
    ← Nat.shiftLeft_or_distrib, or_fields x hy hz, or_field _ hw]
  omega

theorem utf8EncodeChar_one {c : Char} (h : c.toNat ≤ 0x7f) :
    utf8EncodeChar c = [UInt8.ofNat c.toNat] := by
  have h' : c.val.toNat ≤ 0x7f := h
  simp only [utf8EncodeChar, h', if_true]
  rfl

theorem utf8EncodeChar_two {c : Char} (h : 0x7f < c.toNat) (h' : c.toNat ≤ 0x7ff) :
    utf8EncodeChar c =
      [UInt8.ofNat (c.toNat / 64 % 32 + 0xc0), UInt8.ofNat (c.toNat % 64 + 0x80)] := by
  have h₁ : ¬ c.val.toNat ≤ 0x7f := Nat.not_le.mpr h
  have h₂ : c.val.toNat ≤ 0x7ff := h'
  simp only [utf8EncodeChar, h₁, h₂, if_true, if_false]
  rfl

theorem utf8EncodeChar_three {c : Char} (h : 0x7ff < c.toNat) (h' : c.toNat ≤ 0xffff) :
    utf8EncodeChar c =
      [UInt8.ofNat (c.toNat / 4096 % 16 + 0xe0), UInt8.ofNat (c.toNat / 64 % 64 + 0x80),
        UInt8.ofNat (c.toNat % 64 + 0x80)] := by
  have h₁ : ¬ c.val.toNat ≤ 0x7f := fun hle => by
    have : c.toNat ≤ 0x7f := hle
    omega
  have h₂ : ¬ c.val.toNat ≤ 0x7ff := Nat.not_le.mpr h
  have h₃ : c.val.toNat ≤ 0xffff := h'
  simp only [utf8EncodeChar, h₁, h₂, h₃, if_true, if_false]
  rfl

theorem utf8EncodeChar_four {c : Char} (h : 0xffff < c.toNat) :
    utf8EncodeChar c =
      [UInt8.ofNat (c.toNat / 262144 % 8 + 0xf0), UInt8.ofNat (c.toNat / 4096 % 64 + 0x80),
        UInt8.ofNat (c.toNat / 64 % 64 + 0x80), UInt8.ofNat (c.toNat % 64 + 0x80)] := by
  have h₁ : ¬ c.val.toNat ≤ 0x7f := fun hle => by
    have : c.toNat ≤ 0x7f := hle
    omega
  have h₂ : ¬ c.val.toNat ≤ 0x7ff := fun hle => by
    have : c.toNat ≤ 0x7ff := hle
    omega
  have h₃ : ¬ c.val.toNat ≤ 0xffff := Nat.not_le.mpr h
  simp only [utf8EncodeChar, h₁, h₂, h₃, if_false]
  rfl

theorem toNat_lt (c : Char) : c.toNat < 0x110000 := by
  have hvalid := c.valid
  change c.val.toNat < 0x110000
  rcases hvalid with h | h
  · have : c.val.toNat < 0xd800 := h
    omega
  · exact h.2

/-- What the encoding of a character is for the functions of `sstr`: how long it is can be told
from its first octet, and it is read as the code point of the character. -/
structure Reads (c : Char) (size : ℤ) : Prop where
  length_eq : ((utf8EncodeChar c).length : ℤ) = size
  first : ∀ rest ch tail, utf8EncodeChar c ++ rest = ch :: tail → getSizeFromUTF8Char ch = size
  code : ∀ rest, getUnicodeCharFromUTF8Char size (utf8EncodeChar c ++ rest) = .ok c.toNat

theorem reads_one {c : Char} (h : c.toNat ≤ 0x7f) : Reads c 1 := by
  have hfirst : ∀ x < 128, getSizeFromUTF8Char (UInt8.ofNat x) = 1 := by decide
  have hcode : ∀ x < 128, (UInt8.ofNat x).toNat &&& 0b01111111 = x := by decide
  constructor
  · rw [utf8EncodeChar_one h]
    rfl
  · intro rest ch tail heq
    rw [utf8EncodeChar_one h] at heq
    rw [← (List.cons.inj heq).1]
    exact hfirst _ (by omega)
  · intro rest
    rw [utf8EncodeChar_one h]
    simp only [getUnicodeCharFromUTF8Char, List.cons_append, if_true, hcode c.toNat (by omega)]

theorem reads_two {c : Char} (h : 0x7f < c.toNat) (h' : c.toNat ≤ 0x7ff) : Reads c 2 := by
  have hfirst : ∀ x < 32, getSizeFromUTF8Char (UInt8.ofNat (x + 0xc0)) = 2 := by decide
  have hcode : ∀ x < 32, (UInt8.ofNat (x + 0xc0)).toNat &&& 0b00011111 = x := by decide
  constructor
  · rw [utf8EncodeChar_two h h']
    rfl
  · intro rest ch tail heq
    rw [utf8EncodeChar_two h h'] at heq
    rw [← (List.cons.inj heq).1]
    exact hfirst _ (by omega)
  · intro rest
    rw [utf8EncodeChar_two h h']
    simp only [getUnicodeCharFromUTF8Char, List.cons_append]
    rw [if_neg (by decide), if_pos trivial, hcode _ (by omega), continuation_and (by omega),
      or_field _ (by omega)]
    congr 1
    omega

theorem reads_three {c : Char} (h : 0x7ff < c.toNat) (h' : c.toNat ≤ 0xffff) : Reads c 3 := by
  have hfirst : ∀ x < 16, getSizeFromUTF8Char (UInt8.ofNat (x + 0xe0)) = 3 := by decide
  have hcode : ∀ x < 16, (UInt8.ofNat (x + 0xe0)).toNat &&& 0b00001111 = x := by decide
  constructor
  · rw [utf8EncodeChar_three h h']
    rfl
  · intro rest ch tail heq
    rw [utf8EncodeChar_three h h'] at heq
    rw [← (List.cons.inj heq).1]
    exact hfirst _ (by omega)
  · intro rest
    rw [utf8EncodeChar_three h h']
    simp only [getUnicodeCharFromUTF8Char, List.cons_append]
    rw [if_neg (by decide), if_neg (by decide), if_pos trivial, hcode _ (by omega),
      continuation_and (by omega), continuation_and (by omega), or_fields _ (by omega) (by omega)]
    congr 1
    omega

theorem reads_four {c : Char} (h : 0xffff < c.toNat) : Reads c 4 := by
  have hfirst : ∀ x < 8, getSizeFromUTF8Char (UInt8.ofNat (x + 0xf0)) = 4 := by decide
  have hcode : ∀ x < 8, (UInt8.ofNat (x + 0xf0)).toNat &&& 0b00000111 = x := by decide
  have hlt := toNat_lt c
  constructor
  · rw [utf8EncodeChar_four h]
    rfl
  · intro rest ch tail heq
    rw [utf8EncodeChar_four h] at heq
    rw [← (List.cons.inj heq).1]
    exact hfirst _ (by omega)
  · intro rest
    rw [utf8EncodeChar_four h]
    simp only [getUnicodeCharFromUTF8Char, List.cons_append]
    rw [if_neg (by decide), if_neg (by decide), if_neg (by decide), if_pos trivial, hcode _ (by omega),
      continuation_and (by omega), continuation_and (by omega), continuation_and (by omega),
      or_all_fields _ (by omega) (by omega) (by omega)]
    congr 1
    omega

def encodedSize (v : ℕ) : ℤ :=
  if v ≤ 0x7f then 1 else if v ≤ 0x7ff then 2 else if v ≤ 0xffff then 3 else 4

theorem reads_encodedSize (c : Char) : Reads c (encodedSize c.toNat) := by
  unfold encodedSize
  split_ifs with h₁ h₂ h₃
  · exact reads_one h₁
  · exact reads_two (by omega) h₂
  · exact reads_three (by omega) h₃
  · exact reads_four (by omega)

/-- The table of lengths ends at U+7FFFF. -/
theorem getUTF8SizeFromUnicodeChar_eq (v : ℕ) :
    getUTF8SizeFromUnicodeChar v = if v ≤ 0x7ffff then encodedSize v else -1 := by
  unfold getUTF8SizeFromUnicodeChar encodedSize
  split_ifs <;> first | rfl | omega

theorem insertUnicodeChar2UTF8String_eq (c : Char) :
    insertUnicodeChar2UTF8String c.toNat (encodedSize c.toNat) = utf8EncodeChar c := by
  have hlt := toNat_lt c
  have hlast : 0b10000000 ||| (0b0000000000111111 &&& c.toNat) = c.toNat % 64 + 0x80 := by
    rw [Nat.and_comm, Nat.and_two_pow_sub_one_eq_mod c.toNat 6, or_continuation (by omega)]
  have hfield : ∀ x, 0b10000000 ||| x % 64 = x % 64 + 0x80 := fun x => or_continuation (by omega)
  have hmask₆ : (0b0000111111000000 &&& c.toNat) >>> 6 = c.toNat / 64 % 64 :=
    masked_shiftRight c.toNat 6 6
  have hmask₁₂ : (0b000000111111000000000000 &&& c.toNat) >>> 12 = c.toNat / 4096 % 64 :=
    masked_shiftRight c.toNat 12 6
  unfold encodedSize
  split_ifs with h₁ h₂ h₃
  · rw [utf8EncodeChar_one h₁]
    change [UInt8.ofNat (0b01111111 &&& c.toNat)] = _
    rw [Nat.and_comm, Nat.and_two_pow_sub_one_eq_mod c.toNat 7, Nat.mod_eq_of_lt (by omega)]
  · have hlead : ∀ x < 32, 0b11000000 ||| x = x + 0xc0 := by decide
    have hmask : (0b0000011111000000 &&& c.toNat) >>> 6 = c.toNat / 64 % 32 :=
      masked_shiftRight c.toNat 6 5
    rw [utf8EncodeChar_two (by omega) h₂, ← hlast, ← hlead _ (by omega), ← hmask]
    rfl
  · have hlead : ∀ x < 16, 0b11100000 ||| x = x + 0xe0 := by decide
    have hmask : (0b1111000000000000 &&& c.toNat) >>> 12 = c.toNat / 4096 % 16 :=
      masked_shiftRight c.toNat 12 4
    rw [utf8EncodeChar_three (by omega) h₃, ← hlast, ← hlead _ (by omega), ← hfield, ← hmask, ← hmask₆]
    rfl
  · have hlead : ∀ x < 8, 0b11110000 ||| x = x + 0xf0 := by decide
    have hmask : (0b000111000000000000000000 &&& c.toNat) >>> 18 = c.toNat / 262144 % 8 :=
      masked_shiftRight c.toNat 18 3
    rw [utf8EncodeChar_four (by omega), ← hlast, ← hlead _ (by omega), ← hfield, ← hfield, ← hmask,
      ← hmask₆, ← hmask₁₂]
    rfl

def encode (cs : List Char) : Bytes := cs.flatMap utf8EncodeChar

/-- The code points that a string has, and the lengths of their encodings. -/
def steps (cs : List Char) : List (ℕ × ℕ) := cs.map fun c => (c.toNat, (utf8EncodeChar c).length)

theorem encode_cons (c : Char) (cs : List Char) : encode (c :: cs) = utf8EncodeChar c ++ encode cs :=
  List.flatMap_cons

theorem encodedSize_pos (v : ℕ) : 0 < encodedSize v := by
  unfold encodedSize
  split_ifs <;> decide

theorem utf8EncodeChar_eq_cons {c : Char} (hc : c ≠ Char.ofNat 0) :
    ∃ ch tail, utf8EncodeChar c = ch :: tail ∧ ch ≠ 0 ∧ (0 : UInt8) ∉ tail := by
  have hlt := toNat_lt c
  have hpos : c.toNat ≠ 0 := by
    intro h
    exact hc (Char.toNat_inj.mp h)
  have hcontinuation : ∀ x < 64, UInt8.ofNat (x + 0x80) ≠ 0 := by decide
  have hlast := hcontinuation (c.toNat % 64) (by omega)
  have hmiddle := hcontinuation (c.toNat / 64 % 64) (by omega)
  have hsecond := hcontinuation (c.toNat / 4096 % 64) (by omega)
  by_cases h₁ : c.toNat ≤ 0x7f
  · have hlead : ∀ x < 128, x ≠ 0 → UInt8.ofNat x ≠ 0 := by decide
    exact ⟨_, _, utf8EncodeChar_one h₁, hlead _ (by omega) hpos, by simp⟩
  · by_cases h₂ : c.toNat ≤ 0x7ff
    · have hlead : ∀ x < 32, UInt8.ofNat (x + 0xc0) ≠ 0 := by decide
      refine ⟨_, _, utf8EncodeChar_two (by omega) h₂, hlead _ (by omega), ?_⟩
      simp only [List.mem_singleton]
      exact Ne.symm hlast
    · by_cases h₃ : c.toNat ≤ 0xffff
      · have hlead : ∀ x < 16, UInt8.ofNat (x + 0xe0) ≠ 0 := by decide
        refine ⟨_, _, utf8EncodeChar_three (by omega) h₃, hlead _ (by omega), ?_⟩
        simp only [List.mem_cons, List.not_mem_nil, or_false, not_or]
        exact ⟨Ne.symm hmiddle, Ne.symm hlast⟩
      · have hlead : ∀ x < 8, UInt8.ofNat (x + 0xf0) ≠ 0 := by decide
        refine ⟨_, _, utf8EncodeChar_four (by omega), hlead _ (by omega), ?_⟩
        simp only [List.mem_cons, List.not_mem_nil, or_false, not_or]
        exact ⟨Ne.symm hsecond, Ne.symm hmiddle, Ne.symm hlast⟩

theorem zero_not_mem_encode {cs : List Char} (h : Char.ofNat 0 ∉ cs) : (0 : UInt8) ∉ encode cs := by
  intro hmem
  obtain ⟨c, hc, hmem⟩ := List.mem_flatMap.mp hmem
  obtain ⟨ch, tail, heq, hch, htail⟩ := utf8EncodeChar_eq_cons (fun h' => h (h' ▸ hc))
  rw [heq, List.mem_cons] at hmem
  rcases hmem with hmem | hmem
  · exact hch hmem.symm
  · exact htail hmem

theorem ofCString_encode {cs : List Char} (h : Char.ofNat 0 ∉ cs) :
    SStringView.ofCString (encode cs) = ⟨encode cs ++ [0], (encode cs).length⟩ := by
  have hcstr : cstr (encode cs ++ [0]) = encode cs := by
    rw [cstr, List.takeWhile_append_of_pos]
    · simp
    · intro b hb
      simp only [ne_eq, decide_not, Bool.not_eq_true', decide_eq_false_iff_not]
      rintro rfl
      exact zero_not_mem_encode h hb
  rw [SStringView.ofCString, hcstr]

namespace SStringView

theorem toCharsLoop_eq {cs : List Char} (h : Char.ofNat 0 ∉ cs) (pre : Bytes) {fuel : ℕ}
    (hfuel : (encode cs).length ≤ fuel) :
    toCharsLoop ⟨pre ++ (encode cs ++ [0]), (pre ++ encode cs).length⟩ fuel pre.length =
      .ok (cs.map Char.toNat) := by
  induction cs generalizing pre fuel with
  | nil =>
    have hend : ¬ pre.length < (pre ++ encode []).length := by simp [encode]
    cases fuel with
    | zero => rfl
    | succ fuel => simp only [toCharsLoop, if_neg hend, List.map_nil]
  | cons c cs ih =>
    rw [List.mem_cons, not_or] at h
    obtain ⟨ch, tail, heq, hch, -⟩ := utf8EncodeChar_eq_cons (Ne.symm h.1)
    have hread := reads_encodedSize c
    have hsize : (((utf8EncodeChar c).length : ℕ) : ℤ) = encodedSize c.toNat := hread.length_eq
    have hpos := encodedSize_pos c.toNat
    have hlen : (encode (c :: cs)).length = (utf8EncodeChar c).length + (encode cs).length := by
      rw [encode_cons, List.length_append]
    obtain ⟨fuel, rfl⟩ : ∃ k, fuel = k + 1 := ⟨fuel - 1, by omega⟩
    have hdrop : (pre ++ (encode (c :: cs) ++ [0])).drop pre.length =
        ch :: (tail ++ (encode cs ++ [0])) := by
      rw [List.drop_left, encode_cons, heq]
      simp
    have hfirst : getSizeFromUTF8Char ch = encodedSize c.toNat :=
      hread.first (encode cs ++ [0]) ch (tail ++ (encode cs ++ [0])) (by rw [heq]; rfl)
    have hcode : getUnicodeCharFromUTF8Char (encodedSize c.toNat)
        (ch :: (tail ++ (encode cs ++ [0]))) = .ok c.toNat := by
      have hcode := hread.code (encode cs ++ [0])
      rw [heq] at hcode
      exact hcode
    have hfuel' : (encode cs).length ≤ fuel := by omega
    have hrest := ih h.2 (pre ++ utf8EncodeChar c) hfuel'
    have hshift : pre.length + (encodedSize c.toNat).toNat = (pre ++ utf8EncodeChar c).length := by
      rw [List.length_append]
      omega
    have hdata : pre ++ (encode (c :: cs) ++ [0]) =
        pre ++ utf8EncodeChar c ++ (encode cs ++ [0]) := by
      simp only [encode_cons, List.append_assoc]
    have hbytes : pre ++ encode (c :: cs) = pre ++ utf8EncodeChar c ++ encode cs := by
      rw [encode_cons, List.append_assoc]
    have hlt : pre.length < (pre ++ encode (c :: cs)).length := by
      rw [List.length_append]
      omega
    have hfits : ¬ ((pre.length : ℤ) + encodedSize c.toNat > ((pre ++ encode (c :: cs)).length : ℕ)) := by
      rw [List.length_append]
      omega
    simp only [toCharsLoop, if_pos hlt, hdrop, if_neg hch, hfirst, if_neg (show
      ¬ encodedSize c.toNat = -1 by omega), if_neg hfits, hcode, hshift]
    rw [hdata, hbytes, hrest]
    rfl

theorem toChars_encode {cs : List Char} (h : Char.ofNat 0 ∉ cs) :
    (ofCString (encode cs)).toChars = .ok (cs.map Char.toNat) := by
  rw [ofCString_encode h]
  exact toCharsLoop_eq h [] le_rfl

/-- What is read where these characters are still to come. -/
def headCode : List Char → ℕ
  | [] => 0
  | c :: _ => c.toNat

theorem getUnicodeFromUTF8Char_encode {cs : List Char} (h : Char.ofNat 0 ∉ cs) :
    getUnicodeFromUTF8Char (encode cs ++ [0]) = .ok (headCode cs) := by
  cases cs with
  | nil => rfl
  | cons c cs =>
    rw [List.mem_cons, not_or] at h
    obtain ⟨ch, tail, heq, -, -⟩ := utf8EncodeChar_eq_cons (Ne.symm h.1)
    have hread := reads_encodedSize c
    have hbytes : encode (c :: cs) ++ [0] = utf8EncodeChar c ++ (encode cs ++ [0]) := by
      rw [encode_cons, List.append_assoc]
    have hcode := hread.code (encode cs ++ [0])
    have hfirst := hread.first (encode cs ++ [0])
    rw [hbytes]
    rw [heq] at hcode hfirst ⊢
    have hsize := hfirst ch _ rfl
    rw [← hsize] at hcode
    exact hcode

theorem addChar_encodedSize {c : Char} (h : c.toNat ≤ 0x7ffff) {pos : ℕ}
    (hlt : pos + (utf8EncodeChar c).length < sizeBound) :
    addChar pos (getUTF8SizeFromUnicodeChar c.toNat) = pos + (utf8EncodeChar c).length := by
  have hsize := (reads_encodedSize c).length_eq
  rw [getUTF8SizeFromUnicodeChar_eq, if_pos h, ← hsize]
  unfold addChar
  unfold sizeBound at hlt ⊢
  omega

/-- A loop that has come to a place between two characters visits those that follow. -/
theorem delivers_steps (done : List Char) {cs : List Char} (h : Char.ofNat 0 ∉ done ++ cs)
    (hcode : ∀ c ∈ cs, c.toNat ≤ 0x7ffff) (hlt : (encode (done ++ cs)).length < sizeBound)
    (seen : List (ℕ × ℕ)) :
    Delivers (round ⟨encode (done ++ cs) ++ [0], (encode (done ++ cs)).length⟩)
      (⟨encode (done ++ cs) ++ [0], (encode done).length, headCode cs⟩, seen) (seen ++ steps cs) := by
  have hfinish : finish ⟨encode (done ++ cs) ++ [0], (encode (done ++ cs)).length⟩ =
      .ok ⟨encode (done ++ cs) ++ [0], (encode (done ++ cs)).length, headCode (done ++ cs)⟩ := by
    simp only [finish, Iterator.make, getUnicodeFromUTF8Char_encode h]
    rfl
  induction cs generalizing done seen with
  | nil =>
    have hnone : seen ++ steps [] = seen := List.append_nil seen
    rw [List.append_nil] at hfinish ⊢
    rw [hnone]
    apply Delivers.done
    simp only [round, hfinish, bind, Except.bind, if_true]
    rfl
  | cons c cs ih =>
    have hc : c ≠ Char.ofNat 0 := by
      rintro rfl
      exact h (by simp)
    have hne : c.toNat ≠ 0 := fun h0 => hc (Char.toNat_inj.mp h0)
    have hsplit : done ++ c :: cs = (done ++ [c]) ++ cs := by simp
    have hdone : encode (done ++ [c]) = encode done ++ utf8EncodeChar c := by
      simp [encode]
    have hall : encode (done ++ c :: cs) = encode (done ++ [c]) ++ encode cs := by
      rw [hsplit]
      simp [encode]
    have hsize := (reads_encodedSize c).length_eq
    have hpos := encodedSize_pos c.toNat
    have hlength : (encode (done ++ c :: cs)).length =
        (encode done).length + (utf8EncodeChar c).length + (encode cs).length := by
      rw [hall, hdone]
      simp only [List.length_append]
    have hrest := ih (done ++ [c]) (by rwa [← hsplit])
      (fun d hd => hcode d (List.mem_cons_of_mem c hd)) (by rwa [← hsplit])
      (seen ++ [(c.toNat, (utf8EncodeChar c).length)]) (by rw [← hsplit]; exact hfinish)
    have hgoal : seen ++ [(c.toNat, (utf8EncodeChar c).length)] ++ steps cs = seen ++ steps (c :: cs) := by
      simp [steps]
    have hnext : Iterator.next ⟨encode (done ++ c :: cs) ++ [0], (encode done).length,
        headCode (c :: cs)⟩ = .ok ⟨encode (done ++ c :: cs) ++ [0], (encode (done ++ [c])).length,
          headCode cs⟩ := by
      have hbound : (encode done).length + (utf8EncodeChar c).length < sizeBound := by omega
      have hadd := addChar_encodedSize (hcode c List.mem_cons_self) hbound
      have hread : getUnicodeFromUTF8Char ((encode (done ++ c :: cs) ++ [0]).drop
          (encode (done ++ [c])).length) = .ok (headCode cs) := by
        rw [hall, List.append_assoc, List.drop_left]
        apply getUnicodeFromUTF8Char_encode
        intro hmem
        exact h (by simp [hmem])
      rw [hdone, List.length_append] at hread ⊢
      simp only [Iterator.next, headCode, if_neg hne, hadd, hread]
      rfl
    rw [← hsplit, hgoal] at hrest
    apply Delivers.more _ hrest
    have hbefore : ¬ (encode done).length = (encode (done ++ c :: cs)).length := by omega
    simp only [round, hfinish, bind, Except.bind, if_neg hbefore, hnext, pure, Except.pure]
    rw [hdone, List.length_append, Nat.add_sub_cancel_left]
    rfl

end SStringView

namespace SString

theorem addIndex_ok {index n k : ℤ} (h : addIndex index n = .ok k) : k = index + n ∧ k < 2 ^ 31 := by
  unfold addIndex at h
  split_ifs at h with hrange
  obtain rfl := Except.ok.inj h
  exact ⟨rfl, hrange.2⟩

theorem fill_encode {cs : List Char} (hcode : ∀ c ∈ cs, c.toNat ≤ 0x7ffff) (pre rest : Bytes)
    (hfits : (encode cs).length ≤ rest.length)
    (hindex : pre.length + (encode cs).length < 2 ^ 31) :
    fill (pre ++ rest) pre.length (cs.map Char.toNat) =
      .ok (pre ++ (encode cs ++ rest.drop (encode cs).length)) := by
  induction cs generalizing pre rest with
  | nil => simp [fill, encode]
  | cons c cs ih =>
    have hsize := (reads_encodedSize c).length_eq
    have hpos := encodedSize_pos c.toNat
    have hlen : (encode (c :: cs)).length = (utf8EncodeChar c).length + (encode cs).length := by
      rw [encode_cons, List.length_append]
    have hn : getUTF8SizeFromUnicodeChar c.toNat = ((utf8EncodeChar c).length : ℕ) := by
      rw [getUTF8SizeFromUnicodeChar_eq, if_pos (hcode c List.mem_cons_self), hsize]
    have hinsert : insertUnicodeChar2UTF8String c.toNat ((utf8EncodeChar c).length : ℕ) =
        utf8EncodeChar c := by
      rw [hsize]
      exact insertUnicodeChar2UTF8String_eq c
    have hne : utf8EncodeChar c ≠ [] := utf8EncodeChar_ne_nil
    have hroom : (0 : ℤ) ≤ (pre.length : ℕ) ∧
        ((pre.length : ℕ) : ℤ) + (utf8EncodeChar c).length ≤ ((pre ++ rest).length : ℕ) := by
      rw [List.length_append]
      omega
    have hadd : addIndex (pre.length : ℕ) ((utf8EncodeChar c).length : ℕ) =
        .ok ((pre ++ utf8EncodeChar c).length : ℕ) := by
      rw [addIndex, if_pos (by omega), List.length_append, Nat.cast_add]
    have hwrite : write (pre ++ rest) (pre.length : ℕ) (utf8EncodeChar c) =
        .ok (pre ++ utf8EncodeChar c ++ rest.drop (utf8EncodeChar c).length) := by
      rw [write, if_neg hne, if_pos hroom, Int.toNat_natCast, overwrite_left rfl (by omega),
        List.append_assoc]
    have hmore := ih (fun d hd => hcode d (List.mem_cons_of_mem c hd))
      (pre ++ utf8EncodeChar c) (rest.drop (utf8EncodeChar c).length)
      (by rw [List.length_drop]; omega) (by rw [List.length_append]; omega)
    simp only [List.map_cons, fill, hn, hinsert, hwrite, bind, Except.bind, hadd]
    rw [hmore, encode_cons, List.length_append, List.drop_drop]
    simp only [List.append_assoc]

theorem fill_cons {block block' : Bytes} {index : ℤ} {ch : ℕ} {chars : List ℕ}
    (h : fill block index (ch :: chars) = .ok block') :
    ∃ written, written.length = block.length ∧
      index + getUTF8SizeFromUnicodeChar ch < 2 ^ 31 ∧
      fill written (index + getUTF8SizeFromUnicodeChar ch) chars = .ok block' := by
  simp only [fill, bind, Except.bind] at h
  cases hwrite : write block index (insertUnicodeChar2UTF8String ch (getUTF8SizeFromUnicodeChar ch)) with
  | error fault =>
    rw [hwrite] at h
    cases h
  | ok written =>
    rw [hwrite] at h
    cases hadd : addIndex index (getUTF8SizeFromUnicodeChar ch) with
    | error fault =>
      rw [hadd] at h
      cases h
    | ok next =>
      rw [hadd] at h
      obtain ⟨rfl, hlt⟩ := addIndex_ok hadd
      refine ⟨written, ?_, hlt, h⟩
      unfold write at hwrite
      split_ifs at hwrite with hsrc hroom
      · exact congrArg List.length (Except.ok.inj hwrite).symm
      · rw [← Except.ok.inj hwrite]
        exact length_overwrite (by omega)

theorem length_fill {block block' : Bytes} {index : ℤ} {chars : List ℕ}
    (h : fill block index chars = .ok block') : block'.length = block.length := by
  induction chars generalizing block index with
  | nil =>
    obtain rfl := Except.ok.inj h
    rfl
  | cons ch chars ih =>
    obtain ⟨written, hlength, -, hrest⟩ := fill_cons h
    rw [ih hrest, hlength]

theorem index_lt {block block' : Bytes} {index : ℤ} {chars : List ℕ} (hindex : index < 2 ^ 31)
    (h : fill block index chars = .ok block') :
    index + (chars.map getUTF8SizeFromUnicodeChar).sum < 2 ^ 31 := by
  induction chars generalizing block index with
  | nil => simpa using hindex
  | cons ch chars ih =>
    obtain ⟨written, -, hlt, hrest⟩ := fill_cons h
    rw [List.map_cons, List.sum_cons, ← Int.add_assoc]
    exact ih hlt hrest

theorem foldl_addChar (chars : List ℕ) (size : ℕ) (hsize : size < sizeBound) :
    chars.foldl (fun size ch => addChar size (getUTF8SizeFromUnicodeChar ch)) size =
      addChar size (chars.map getUTF8SizeFromUnicodeChar).sum := by
  induction chars generalizing size with
  | nil =>
    simp only [List.foldl_nil, List.map_nil, List.sum_nil]
    unfold addChar
    unfold sizeBound at hsize ⊢
    omega
  | cons ch chars ih =>
    have hlt : addChar size (getUTF8SizeFromUnicodeChar ch) < sizeBound := by
      unfold addChar sizeBound
      omega
    rw [List.foldl_cons, ih _ hlt, List.map_cons, List.sum_cons]
    unfold addChar sizeBound
    omega

/-- The code points that `getUTF8SizeFromUnicodeChar` has no length for. -/
def corrupted (cs : List Char) : ℕ := cs.countP fun c => 0x7ffff < c.toNat

theorem sum_sizes (cs : List Char) :
    ((cs.map Char.toNat).map getUTF8SizeFromUnicodeChar).sum + 5 * corrupted cs = (encode cs).length ∧
      4 * corrupted cs ≤ (encode cs).length := by
  induction cs with
  | nil => exact ⟨rfl, Nat.zero_le _⟩
  | cons c cs ih =>
    obtain ⟨hsum, hle⟩ := ih
    have hsize := (reads_encodedSize c).length_eq
    have hpos := encodedSize_pos c.toNat
    rw [encode_cons, List.length_append]
    simp only [List.map_cons, List.sum_cons, getUTF8SizeFromUnicodeChar_eq, corrupted,
      List.countP_cons] at hsum hle ⊢
    by_cases hc : c.toNat ≤ 0x7ffff
    · simp only [hc, if_true, decide_eq_true_eq, if_neg (Nat.not_lt.mpr hc)]
      omega
    · have hfour : encodedSize c.toNat = 4 := by
        unfold encodedSize
        rw [if_neg (by omega), if_neg (by omega), if_neg (by omega)]
      simp only [hc, if_false, decide_eq_true_eq, if_pos (Nat.not_le.mp hc)]
      omega

theorem corrupted_eq_zero {cs : List Char} : corrupted cs = 0 ↔ ∀ c ∈ cs, c.toNat ≤ 0x7ffff := by
  simp [corrupted, List.countP_eq_zero]

/-- A sum of sizes that is the length nonetheless: 2 ^ 64 is no multiple of 5. -/
theorem eq_zero_of_addChar {sum : ℤ} {count length : ℕ} (hsum : sum + 5 * count = length)
    (hle : 4 * count ≤ length) (hlt : sum < 2 ^ 31) (hlength : length = addChar 0 sum) :
    count = 0 := by
  rw [addChar, Int.natCast_zero, Int.zero_add] at hlength
  rcases lt_or_ge sum 0 with hneg | hpos
  · have hbound : length < 2 ^ 64 := by
      rw [hlength]
      unfold sizeBound
      omega
    have hmod : sum % sizeBound = sum + 2 ^ 64 := by
      rw [← Int.add_emod_right, Int.emod_eq_of_lt]
      · rfl
      · unfold sizeBound
        omega
      · unfold sizeBound
        omega
    rw [hmod] at hlength
    omega
  · rw [Int.emod_eq_of_lt hpos (by unfold sizeBound; omega)] at hlength
    omega

theorem size_of_fromSChars {junk : ℕ → UInt8} {chars : List ℕ} {str : SStringView}
    (h : fromSChars junk chars = .ok str) :
    str.text.length = addChar 0 (chars.map getUTF8SizeFromUnicodeChar).sum ∧
      (chars.map getUTF8SizeFromUnicodeChar).sum < 2 ^ 31 := by
  have hsize := foldl_addChar chars 0 (by decide)
  simp only [fromSChars, hsize, bind, Except.bind] at h
  split at h
  · cases h
  · rename_i block hfill
    split_ifs at h with hcapacity
    obtain rfl := Except.ok.inj h
    have hindex := index_lt (by decide) hfill
    have hblock := length_fill hfill
    rw [List.length_map, List.length_range] at hblock
    rw [Int.zero_add] at hindex
    refine ⟨?_, hindex⟩
    have hroom : addChar 0 (chars.map getUTF8SizeFromUnicodeChar).sum + [(0 : UInt8)].length ≤
        block.length := by
      rw [hblock, List.length_singleton]
      omega
    have hlength := length_overwrite hroom
    rw [SStringView.text, List.length_take, hlength, hblock]
    dsimp only
    omega

theorem fromSChars_encode (junk : ℕ → UInt8) {cs : List Char} (hcode : ∀ c ∈ cs, c.toNat ≤ 0x7ffff)
    (hlt : (encode cs).length < 2 ^ 31) :
    ∃ str, fromSChars junk (cs.map Char.toNat) = .ok str ∧ str.text = encode cs ∧
      str.data[str.size]? = some 0 := by
  obtain ⟨hsum, -⟩ := sum_sizes cs
  rw [corrupted_eq_zero.mpr hcode] at hsum
  have hsize : (cs.map Char.toNat).foldl
      (fun size ch => addChar size (getUTF8SizeFromUnicodeChar ch)) 0 = (encode cs).length := by
    rw [foldl_addChar _ 0 (by decide)]
    unfold addChar sizeBound
    omega
  have hcapacity : (encode cs).length <
      ((encode cs).length / 16 + 1) * 16 % sizeBound := by
    unfold sizeBound
    omega
  generalize hblock : (List.range (((encode cs).length / 16 + 1) * 16 % sizeBound)).map junk = block
  have hlength : block.length = ((encode cs).length / 16 + 1) * 16 % sizeBound := by
    rw [← hblock, List.length_map, List.length_range]
  have hfill := fill_encode hcode [] block (by omega)
    (by rw [List.length_nil, Nat.zero_add]; exact hlt)
  have hrest : (block.drop (encode cs).length).length ≠ 0 := by
    rw [List.length_drop]
    omega
  refine ⟨⟨overwrite (encode cs ++ block.drop (encode cs).length) (encode cs).length [0],
    (encode cs).length⟩, ?_, ?_, ?_⟩
  · simp only [fromSChars, hsize, hblock, bind, Except.bind]
    rw [List.nil_append, List.nil_append] at hfill
    rw [List.length_nil] at hfill
    simp only [Int.natCast_zero] at hfill
    rw [hfill]
    simp only [if_pos hcapacity]
    rfl
  · rw [overwrite_left rfl (by rw [List.length_singleton]; omega), SStringView.text]
    exact List.take_left
  · rw [overwrite_left rfl (by rw [List.length_singleton]; omega)]
    simp

end SString

/-- The string `s` of the characters `cs` and its code points correspond: `toChars` gives them,
`fromSChars` gives the string back, and a loop over the string visits them, each with the length
of its encoding. -/
structure Corresponds (junk : ℕ → UInt8) (cs : List Char) : Prop where
  toChars : (SStringView.ofCString (encode cs)).toChars = .ok (cs.map Char.toNat)
  fromSChars : ∃ str, SString.fromSChars junk (cs.map Char.toNat) = .ok str ∧
    str.text = encode cs ∧ str.data[str.size]? = some 0
  visits : ∃ it, (SStringView.ofCString (encode cs)).begin = .ok it ∧
    Delivers (SStringView.ofCString (encode cs)).round (it, []) (steps cs)

open SString SStringView in
/-- A valid string without a NUL corresponds to its code points if and only if
`getUTF8SizeFromUnicodeChar` knows them all and `index` does not overflow. -/
theorem corresponds_iff (junk : ℕ → UInt8) {cs : List Char} (h : Char.ofNat 0 ∉ cs) :
    Corresponds junk cs ↔ (∀ c ∈ cs, c.toNat ≤ 0x7ffff) ∧ (encode cs).length < 2 ^ 31 := by
  obtain ⟨hsum, hle⟩ := sum_sizes cs
  constructor
  · rintro ⟨-, ⟨str, hfrom, htext, -⟩, -⟩
    obtain ⟨hlength, hindex⟩ := size_of_fromSChars hfrom
    rw [htext] at hlength
    have hcorrupted := eq_zero_of_addChar hsum hle hindex hlength
    refine ⟨corrupted_eq_zero.mp hcorrupted, ?_⟩
    rw [hcorrupted] at hsum
    omega
  · rintro ⟨hcode, hlt⟩
    refine ⟨toChars_encode h, fromSChars_encode junk hcode hlt, ?_⟩
    rw [ofCString_encode h]
    refine ⟨⟨encode cs ++ [0], 0, headCode cs⟩, ?_, ?_⟩
    · simp only [begin, Iterator.make, getUnicodeFromUTF8Char_encode h]
      rfl
    · have hbound : (encode ([] ++ cs)).length < sizeBound := by
        rw [List.nil_append]
        unfold sizeBound
        omega
      exact delivers_steps [] h hcode hbound []

theorem corresponds_iff_sample :
    Corresponds (fun _ => 0) ['a', 'λ', Char.ofNat 0x7ffff] ↔
      (∀ c ∈ ['a', 'λ', Char.ofNat 0x7ffff], c.toNat ≤ 0x7ffff) ∧
        (encode ['a', 'λ', Char.ofNat 0x7ffff]).length < 2 ^ 31 :=
  corresponds_iff _ (by decide)

/-- `getUTF8SizeFromUnicodeChar` has no length for U+80000. -/
theorem not_corresponds_u80000 : ¬ Corresponds (fun _ => 0) [Char.ofNat 0x80000] := by
  rintro ⟨-, ⟨str, hfrom, -⟩, -⟩
  have hfault : SString.fromSChars (fun _ => 0) [0x80000] = .error .overflow := by decide
  have heq : List.map Char.toNat [Char.ofNat 0x80000] = [0x80000] := by decide
  rw [heq, hfault] at hfrom
  cases hfrom

end Sese.Text
