import Sese.Foundation.PrefixInteger
import Sese.Net.Http.HPackUtil
import Sese.Util.Splitting

/-!
# Integers of a header block

The integers that `HPackUtil` writes and reads are prefix integers. `encodeIndexCase0` leaves out the
last group; its siblings and the lengths of strings are complete. `decodeInteger` keeps 32 bits and
shifts by seven more for every group, so it is right while the number of groups is at most five and
the number is below `2 ^ 32`.
-/
namespace Sese.Net.Http
namespace HPackUtil

open Foundation

theorem toNat_low_bits (b : UInt8) : (b &&& 0x7F).toNat = b.toNat % 128 := by
  simp only [UInt8.toNat_and]
  exact Nat.and_two_pow_sub_one_eq_mod _ 7

theorem high_bit_eq_zero_iff (b : UInt8) : b &&& 0x80 = 0 ↔ b.toNat < 128 := by
  apply forall_octet (P := fun b => b &&& 0x80 = 0 ↔ b.toNat < 128)
  decide +kernel

/-- The patterns of the representations, with the width of the prefix under them. -/
def prefixes : List (UInt8 × ℕ) := [(0x80, 7), (0x40, 6), (0x00, 4), (0x10, 4), (0x00, 7)]

theorem prefix_octet : ∀ p ∈ prefixes, ∀ i < 2 ^ p.2,
    (p.1 ||| UInt8.ofNat i).toNat = p.1.toNat + i ∧ p.1.toNat % 2 ^ p.2 = 0 ∧
      p.1.toNat + 2 ^ p.2 ≤ 256 := by
  decide

/-- The loop of the encoders and the octet that three of them write after it. -/
theorem encodeLoop_eq_groups (rounds index : ℕ) (h : index < 128 ^ (rounds + 1)) :
    (encodeLoop rounds index).1 ++ [UInt8.ofNat (encodeLoop rounds index).2] =
      PrefixInteger.groups index := by
  induction rounds generalizing index with
  | zero => simp [encodeLoop, PrefixInteger.groups_last (by simpa using h : index < 128)]
  | succ rounds ih =>
    by_cases hlast : index < 128
    · simp [encodeLoop, Nat.not_le.mpr hlast, PrefixInteger.groups_last hlast]
    · have hrest : index / 128 < 128 ^ (rounds + 1) := by
        apply Nat.div_lt_of_lt_mul
        rwa [pow_succ, mul_comm] at h
      simp only [encodeLoop, if_pos (Nat.not_lt.mp hlast), List.cons_append, ih _ hrest,
        PrefixInteger.groups_more hlast]

/-- Seventy bits are more than a `size_t` has. -/
theorem encodePrefixed_eq_represent {pattern : UInt8} {n : ℕ} (hp : (pattern, n) ∈ prefixes)
    {index : ℕ} (hindex : index < 2 ^ 64) :
    encodePrefixed pattern n index = PrefixInteger.represent pattern.toNat n index := by
  have hoctet : ∀ i < 2 ^ n, pattern ||| UInt8.ofNat i = UInt8.ofNat (pattern.toNat + i) := by
    intro i hi
    rw [← (prefix_octet _ hp i hi).1, UInt8.ofNat_toNat]
  have hpos : 0 < 2 ^ n := by positivity
  unfold encodePrefixed PrefixInteger.represent
  split_ifs with hshort
  · rw [hoctet index (by omega)]
  · simp only [hoctet (2 ^ n - 1) (by omega)]
    rw [encodeLoop_eq_groups 10 _ (by omega)]

theorem decodeLoop_short (src : Bytes) {dest m len : ℕ}
    (h : m + 7 * (PrefixInteger.run src).length < 39) :
    decodeLoop src dest m len =
      .ok (if PrefixInteger.Ends src then
        some ((dest + PrefixInteger.value (PrefixInteger.run src) * 2 ^ m) % 2 ^ 32,
          len + (PrefixInteger.run src).length, src.drop (PrefixInteger.run src).length)
      else none) := by
  induction src generalizing dest m len with
  | nil => simp [decodeLoop]
  | cons b src ih =>
    by_cases hlast : b.toNat < 128
    · have hm : ¬m ≥ 32 := by simp [PrefixInteger.run_last hlast] at h; omega
      simp only [decodeLoop, if_neg hm, if_pos ((high_bit_eq_zero_iff b).mpr hlast), toNat_low_bits,
        PrefixInteger.run_last hlast, if_pos (PrefixInteger.ends_last hlast), PrefixInteger.value]
      simp
    · simp only [PrefixInteger.run_more hlast, List.length_cons] at h
      have hm : ¬m ≥ 32 := by omega
      have hpow : 128 * PrefixInteger.value (PrefixInteger.run src) * 2 ^ m =
          PrefixInteger.value (PrefixInteger.run src) * 2 ^ (m + 7) := by
        rw [pow_add]
        ring
      have hmore : ¬b &&& 0x80 = 0 := fun h => hlast ((high_bit_eq_zero_iff b).mp h)
      rw [decodeLoop, if_neg hm]
      simp only [if_neg hmore, toNat_low_bits]
      rw [ih (by omega), PrefixInteger.run_more hlast]
      simp only [PrefixInteger.ends_more hlast, PrefixInteger.value, List.length_cons,
        List.drop_succ_cons, Nat.mod_add_mod, Nat.add_mul, hpow]
      simp only [Nat.add_assoc, Nat.add_comm 1]

/-- A sixth octet is shifted too far. -/
theorem decodeLoop_long (src : Bytes) {dest m len : ℕ} (hm : m < 39)
    (h : 39 ≤ m + 7 * (PrefixInteger.run src).length) :
    decodeLoop src dest m len = .error .wideShift := by
  induction src generalizing dest m len with
  | nil => simp at h; omega
  | cons b src ih =>
    by_cases hwide : m ≥ 32
    · simp [decodeLoop, hwide]
    · have hmore : ¬b.toNat < 128 := by
        intro hlast
        simp [PrefixInteger.run_last hlast] at h
        omega
      simp only [PrefixInteger.run_more hmore, List.length_cons] at h
      have hcontinued : ¬b &&& 0x80 = 0 := fun h => hmore ((high_bit_eq_zero_iff b).mp h)
      simp only [decodeLoop, if_neg hwide, if_neg hcontinued]
      exact ih (by omega) (by omega)

/-- What `decodeInteger` does, for every prefix and every continuation. -/
theorem decodeInteger_eq (buf : UInt8) (src : Bytes) (n : ℕ) :
    decodeInteger buf src n =
      if buf.toNat % 2 ^ n ≠ 2 ^ n - 1 then .ok (some (buf.toNat % 2 ^ n, 0, src))
      else if 5 < (PrefixInteger.run src).length then .error .wideShift
      else .ok (if PrefixInteger.Ends src then
        some ((2 ^ n - 1 + PrefixInteger.value (PrefixInteger.run src)) % 2 ^ 32,
          (PrefixInteger.run src).length, src.drop (PrefixInteger.run src).length)
      else none) := by
  unfold decodeInteger
  by_cases hfull : buf.toNat % 2 ^ n = 2 ^ n - 1
  · rw [if_pos hfull, if_neg (not_not.mpr hfull), hfull]
    by_cases hlong : 5 < (PrefixInteger.run src).length
    · rw [if_pos hlong]
      exact decodeLoop_long src (by decide) (by omega)
    · simp [decodeLoop_short src (m := 0) (by omega), hlong]
  · simp [hfull]

/-- A number of 32 bits with at most five groups is read as it is denoted. -/
theorem decodeInteger_of_denote {n : ℕ} {buf : UInt8} {src : Bytes} {v len : ℕ}
    (hdenote : PrefixInteger.denote n buf src = some (v, len)) (hlen : len ≤ 5)
    (hv : v < 2 ^ 32) : decodeInteger buf src n = .ok (some (v, len, src.drop len)) := by
  unfold PrefixInteger.denote at hdenote
  rw [decodeInteger_eq]
  split_ifs at hdenote ⊢ with hfull hends hlong hlong
  · obtain ⟨rfl, rfl⟩ := Prod.mk.inj (Option.some.inj hdenote)
    simp
  · obtain ⟨-, rfl⟩ := Prod.mk.inj (Option.some.inj hdenote)
    omega
  · obtain ⟨rfl, rfl⟩ := Prod.mk.inj (Option.some.inj hdenote)
    rw [Nat.mod_eq_of_lt hv]

theorem decodeInteger_encodePrefixed {pattern : UInt8} {n : ℕ} (hp : (pattern, n) ∈ prefixes)
    (index : ℕ) (hindex : index < 2 ^ 32) (rest : Bytes) :
    ∃ i < 2 ^ n, ∃ out, encodePrefixed pattern n index = (pattern ||| UInt8.ofNat i) :: out ∧
      decodeInteger (pattern ||| UInt8.ofNat i) (out ++ rest) n =
        .ok (some (index, out.length, rest)) := by
  have hoctet := prefix_octet _ hp
  dsimp only at hoctet
  obtain ⟨-, hmod, hfit⟩ := hoctet 0 (by positivity)
  obtain ⟨i, hi, out, hout, hdenote⟩ := PrefixInteger.denote_represent hmod hfit index rest
  have hfirst : pattern ||| UInt8.ofNat i = UInt8.ofNat (pattern.toNat + i) := by
    rw [← (hoctet i hi).1, UInt8.ofNat_toNat]
  have hlength : (PrefixInteger.represent pattern.toNat n index).length ≤ 6 :=
    PrefixInteger.length_represent_le (k := 4) (by omega)
  rw [hout, List.length_cons] at hlength
  refine ⟨i, hi, out, ?_, ?_⟩
  · rw [encodePrefixed_eq_represent hp (by omega), hout, hfirst]
  · rw [hfirst, decodeInteger_of_denote hdenote (by omega) hindex, List.drop_left]

/-- The integers in what the encoder writes: the indices of the four representations, and the
lengths of strings that are sent as they are or Huffman coded. -/
inductive IntegerField
  | case0 | case1 | case2 | case3 | plainLength | huffmanLength
  deriving DecidableEq

namespace IntegerField

/-- The bits above the prefix. -/
def pattern : IntegerField → UInt8
  | case0 | huffmanLength => 0x80
  | case1 => 0x40
  | case2 | plainLength => 0x00
  | case3 => 0x10

def width : IntegerField → ℕ
  | case0 | plainLength | huffmanLength => 7
  | case1 => 6
  | case2 | case3 => 4

def encode : IntegerField → ℕ → Bytes
  | case0 => encodeIndexCase0
  | case1 => encodeIndexCase1
  | case2 => encodeIndexCase2
  | case3 => encodeIndexCase3
  | plainLength => encodePrefixed 0x00 7
  | huffmanLength => encodePrefixed 0x80 7

/-- The length that `encodeString` writes, and what it is the length of. -/
def ofString (s : Bytes) : IntegerField × Bytes :=
  if s.length > 8 then (huffmanLength, huffmanEncode s) else (plainLength, s)

theorem mem_prefixes (field : IntegerField) : (field.pattern, field.width) ∈ prefixes := by
  cases field <;> decide

theorem encode_eq_encodePrefixed {field : IntegerField} (h : field ≠ case0) :
    field.encode = encodePrefixed field.pattern field.width := by
  cases field
  case case0 => exact absurd rfl h
  all_goals rfl

end IntegerField

theorem encodeString_eq (s : Bytes) :
    encodeString s = (IntegerField.ofString s).1.encode (IntegerField.ofString s).2.length ++
      (IntegerField.ofString s).2 := by
  unfold encodeString IntegerField.ofString
  split_ifs <;> simp [IntegerField.encode]

theorem encodeIndexCase0_eq {index : ℕ} (h : index < 127) :
    encodeIndexCase0 index = encodePrefixed 0x80 7 index := by
  simp [encodeIndexCase0, encodePrefixed, h]

theorem length_encodeIndexCase0 {index : ℕ} (h : ¬index < 127) :
    (encodePrefixed 0x80 7 index).length = (encodeIndexCase0 index).length + 1 := by
  simp [encodeIndexCase0, encodePrefixed, h]

/-- The integer is written as the number it is, and read back whatever follows it. -/
def IntegerField.Exact (field : IntegerField) (v : ℕ) : Prop :=
  field.encode v = PrefixInteger.represent field.pattern.toNat field.width v ∧
    ∀ rest, ∃ first out, field.encode v = first :: out ∧
      decodeInteger first (out ++ rest) field.width = .ok (some (v, out.length, rest))

/-- Every integer is exact, except the indices from 127 on that `encodeIndexCase0` writes. -/
theorem integers_exact_iff (field : IntegerField) (v : ℕ) (hv : v < 2 ^ 32) :
    field.Exact v ↔ (field = .case0 → v < 127) := by
  have hrepresent := encodePrefixed_eq_represent field.mem_prefixes (by omega : v < 2 ^ 64)
  constructor
  · rintro ⟨hwritten, -⟩ rfl
    by_contra hlarge
    have hlength := length_encodeIndexCase0 hlarge
    have hsame : encodeIndexCase0 v = encodePrefixed 0x80 7 v := hwritten.trans hrepresent.symm
    rw [hsame] at hlength
    omega
  · intro hsmall
    have hencode : field.encode v = encodePrefixed field.pattern field.width v := by
      by_cases h0 : field = .case0
      · subst h0
        exact encodeIndexCase0_eq (hsmall rfl)
      · simp [IntegerField.encode_eq_encodePrefixed h0]
    constructor
    · rw [hencode, hrepresent]
    · intro rest
      obtain ⟨i, -, out, hout, hread⟩ := decodeInteger_encodePrefixed field.mem_prefixes v hv rest
      exact ⟨_, out, hencode.trans hout, hread⟩

/-- The example of the prefix coding that RFC 7541 works out. -/
theorem integers_exact_1337 : IntegerField.Exact .case1 1337 :=
  (integers_exact_iff .case1 1337 (by decide)).mpr (fun h => by cases h)

theorem index_127_not_exact : ¬IntegerField.Exact .case0 127 := by
  rintro ⟨hwritten, -⟩
  simp [IntegerField.encode, encodeIndexCase0, encodeLoop, PrefixInteger.represent,
    IntegerField.pattern, IntegerField.width, PrefixInteger.groups_last] at hwritten

/-- The groups behind a full prefix are at most five, and the number fits in 32 bits if it ends. -/
def FitsWord (n : ℕ) (buf : UInt8) (src : Bytes) : Prop :=
  buf.toNat % 2 ^ n = 2 ^ n - 1 → (PrefixInteger.run src).length ≤ 5 ∧
    (PrefixInteger.Ends src → 2 ^ n - 1 + PrefixInteger.value (PrefixInteger.run src) < 2 ^ 32)

/-- `decodeInteger` reports an error, or the number that the octets denote. -/
def Faithful (n : ℕ) (buf : UInt8) (src : Bytes) : Prop :=
  decodeInteger buf src n = .ok none ∨ ∃ v len,
    decodeInteger buf src n = .ok (some (v, len, src.drop len)) ∧
      PrefixInteger.denote n buf src = some (v, len)

/-- Exactly the numbers above 32 bits wrap, and exactly a sixth group is shifted too far. -/
theorem decodeInteger_faithful_iff (n : ℕ) (buf : UInt8) (src : Bytes) :
    Faithful n buf src ↔ FitsWord n buf src := by
  unfold Faithful FitsWord PrefixInteger.denote
  rw [decodeInteger_eq]
  by_cases hfull : buf.toNat % 2 ^ n = 2 ^ n - 1
  · simp only [hfull, ne_eq, not_true, if_false, true_implies]
    by_cases hlong : 5 < (PrefixInteger.run src).length
    · simp [hlong]
    · by_cases hends : PrefixInteger.Ends src
      · simp [hlong, hends, Nat.not_lt.mp hlong]
        omega
      · simp [hlong, hends, Nat.not_lt.mp hlong]
  · simp [hfull]

/-- Five groups of ones behind a prefix of ones stand for 34359738494 and are read as 126. -/
theorem decodeInteger_wraps : ¬Faithful 7 0xFF [0xFF, 0xFF, 0xFF, 0xFF, 0x7F] := by
  have hread : decodeInteger 0xFF [0xFF, 0xFF, 0xFF, 0xFF, 0x7F] 7 =
      .ok (some (126, 5, [])) := by decide
  have hdenoted : PrefixInteger.denote 7 0xFF [0xFF, 0xFF, 0xFF, 0xFF, 0x7F] =
      some (34359738494, 5) := by decide
  rintro (hfailed | ⟨v, len, hv, hvalue⟩)
  · rw [hread] at hfailed
    cases hfailed
  · rw [hread] at hv
    rw [hdenoted] at hvalue
    cases hvalue
    cases hv

end HPackUtil
end Sese.Net.Http
