import Mathlib.Data.Nat.NthRoot.Defs
import Mathlib.Tactic

/-!
# Secure hashes

The two hashes of FIPS 180-4 that work with words of 32 bits, SHA-1 and SHA-256. A message is padded
to a multiple of 64 octets, and its blocks of sixteen words are compressed into a chaining value one
after the other. `finish` is what is still to be done when `rest` is left of a message: the lemmas
about it are the cases of a loop that reads 64 octets at a time.
-/
namespace Foundation
namespace SecureHash

abbrev Word := BitVec 32

def word (a b c d : UInt8) : Word := a.toBitVec ++ b.toBitVec ++ c.toBitVec ++ d.toBitVec

def octets (w : Word) : List UInt8 :=
  [.ofNat (w.toNat / 2 ^ 24), .ofNat (w.toNat / 2 ^ 16), .ofNat (w.toNat / 2 ^ 8), .ofNat w.toNat]

def wordAt (block : List UInt8) (t : ℕ) : Word :=
  word (block.getD (4 * t) 0) (block.getD (4 * t + 1) 0) (block.getD (4 * t + 2) 0)
    (block.getD (4 * t + 3) 0)

def octets64 (n : ℕ) : List UInt8 :=
  octets (BitVec.ofNat 32 (n / 2 ^ 32)) ++ octets (BitVec.ofNat 32 n)

def blocks (m : List UInt8) : List (List UInt8) :=
  if 64 ≤ m.length then m.take 64 :: blocks (m.drop 64) else []
termination_by m.length
decreasing_by simp; omega

@[simp] theorem length_octets (w : Word) : (octets w).length = 4 := by simp [octets]

@[simp] theorem length_octets64 (n : ℕ) : (octets64 n).length = 8 := by simp [octets64]

theorem toNat_word (a b c d : UInt8) :
    (word a b c d).toNat = a.toNat * 2 ^ 24 + b.toNat * 2 ^ 16 + c.toNat * 2 ^ 8 + d.toNat := by
  have happend : ∀ (x : ℕ) (y : UInt8), x <<< 8 ||| y.toNat = x * 2 ^ 8 + y.toNat := by
    intro x y
    rw [← Nat.shiftLeft_add_eq_or_of_lt y.toNat_lt, Nat.shiftLeft_eq]
  simp only [word, BitVec.toNat_append, UInt8.toNat_toBitVec, happend]
  omega

@[simp] theorem octets_word (a b c d : UInt8) : octets (word a b c d) = [a, b, c, d] := by
  have ha := a.toNat_lt
  have hb := b.toNat_lt
  have hc := c.toNat_lt
  have hd := d.toNat_lt
  simp only [octets, toNat_word, List.cons.injEq, ← UInt8.toNat_inj, UInt8.toNat_ofNat', and_true]
  omega

theorem word_and (a b c d a' b' c' d' : UInt8) :
    word a b c d &&& word a' b' c' d' = word (a &&& a') (b &&& b') (c &&& c') (d &&& d') := by
  have h : (a.toBitVec ++ b.toBitVec ++ c.toBitVec ++ d.toBitVec) &&&
      (a'.toBitVec ++ b'.toBitVec ++ c'.toBitVec ++ d'.toBitVec) =
      (a &&& a').toBitVec ++ (b &&& b').toBitVec ++ (c &&& c').toBitVec ++ (d &&& d').toBitVec := by
    simp only [BitVec.and_append, UInt8.toBitVec_and]
  exact h

theorem word_xor (a b c d a' b' c' d' : UInt8) :
    word a b c d ^^^ word a' b' c' d' = word (a ^^^ a') (b ^^^ b') (c ^^^ c') (d ^^^ d') := by
  have h : (a.toBitVec ++ b.toBitVec ++ c.toBitVec ++ d.toBitVec) ^^^
      (a'.toBitVec ++ b'.toBitVec ++ c'.toBitVec ++ d'.toBitVec) =
      (a ^^^ a').toBitVec ++ (b ^^^ b').toBitVec ++ (c ^^^ c').toBitVec ++ (d ^^^ d').toBitVec := by
    simp only [BitVec.xor_append, UInt8.toBitVec_xor]
  exact h

theorem word_not (a b c d : UInt8) : ~~~word a b c d = word (~~~a) (~~~b) (~~~c) (~~~d) := by
  have h : ~~~(a.toBitVec ++ b.toBitVec ++ c.toBitVec ++ d.toBitVec) =
      (~~~a).toBitVec ++ (~~~b).toBitVec ++ (~~~c).toBitVec ++ (~~~d).toBitVec := by
    simp only [BitVec.not_append, UInt8.toBitVec_not]
  exact h

theorem toNat_rotateRight (w : Word) {n : ℕ} (h : n < 32) :
    (w.rotateRight n).toNat = w.toNat % 2 ^ n * 2 ^ (32 - n) + w.toNat / 2 ^ n := by
  have hfits : w.toNat / 2 ^ n < 2 ^ (32 - n) := by
    rw [Nat.div_lt_iff_lt_mul (by positivity), ← pow_add, Nat.sub_add_cancel h.le]
    exact w.isLt
  have hhigh : w.toNat * 2 ^ (32 - n) % 2 ^ 32 = w.toNat % 2 ^ n * 2 ^ (32 - n) := by
    have hpow : 2 ^ 32 = 2 ^ n * 2 ^ (32 - n) := by rw [← pow_add, Nat.add_sub_cancel' h.le]
    rw [hpow, Nat.mul_mod_mul_right]
  rw [BitVec.toNat_rotateRight, Nat.mod_eq_of_lt h, Nat.shiftLeft_eq, hhigh,
    Nat.shiftRight_eq_div_pow, Nat.or_comm, ← Nat.shiftLeft_eq,
    Nat.shiftLeft_add_eq_or_of_lt hfits]

theorem rotateRight_rotateRight (w : Word) {m n : ℕ} (h : m + n < 32) :
    (w.rotateRight m).rotateRight n = w.rotateRight (m + n) := by
  ext i hi
  simp only [BitVec.getElem_rotateRight, Nat.mod_eq_of_lt h, Nat.mod_eq_of_lt (by omega : m < 32),
    Nat.mod_eq_of_lt (by omega : n < 32)]
  split_ifs <;> first | omega | (congr 1; omega)

theorem rotateRight_8 (a b c d : UInt8) : (word a b c d).rotateRight 8 = word d a b c := by
  have ha := a.toNat_lt
  have hb := b.toNat_lt
  have hc := c.toNat_lt
  have hd := d.toNat_lt
  apply BitVec.eq_of_toNat_eq
  rw [toNat_rotateRight _ (by decide), toNat_word, toNat_word]
  omega

theorem rotateRight_16 (a b c d : UInt8) : (word a b c d).rotateRight 16 = word c d a b := by
  rw [← rotateRight_rotateRight _ (by decide : 8 + 8 < 32), rotateRight_8, rotateRight_8]

theorem rotateRight_24 (a b c d : UInt8) : (word a b c d).rotateRight 24 = word b c d a := by
  rw [← rotateRight_rotateRight _ (by decide : 16 + 8 < 32), rotateRight_16, rotateRight_8]

theorem octets_injective : Function.Injective octets := by
  intro v w h
  have hv := v.isLt
  have hw := w.isLt
  simp only [octets, List.cons.injEq, ← UInt8.toNat_inj, UInt8.toNat_ofNat'] at h
  apply BitVec.eq_of_toNat_eq
  omega

theorem blocks_block {m : List UInt8} (h : 64 ≤ m.length) :
    blocks m = m.take 64 :: blocks (m.drop 64) := by
  rw [blocks, if_pos h]

theorem blocks_short {m : List UInt8} (h : m.length < 64) : blocks m = [] := by
  rw [blocks, if_neg (by omega)]

theorem blocks_nil : blocks [] = [] := blocks_short (by simp)

theorem blocks_append {b : List UInt8} (h : b.length = 64) (m : List UInt8) :
    blocks (b ++ m) = b :: blocks m := by
  rw [blocks_block (by simp [h])]
  simp [← h]

def tail (m : List UInt8) : List UInt8 := m.drop (64 * (m.length / 64))

theorem length_tail (m : List UInt8) : (tail m).length = m.length % 64 := by
  rw [tail, List.length_drop]
  omega

theorem tail_block {m : List UInt8} (h : 64 ≤ m.length) : tail (m.drop 64) = tail m := by
  unfold tail
  rw [List.length_drop, List.drop_drop]
  congr 1
  omega

theorem tail_short {m : List UInt8} (h : m.length < 64) : tail m = m := by
  rw [tail, Nat.div_eq_of_lt h, Nat.mul_zero, List.drop_zero]

/-- The zeros behind the single one: so many that eight octets complete a block. -/
def zeros (n : ℕ) : ℕ := (119 - n % 64) % 64

theorem zeros_spec (n : ℕ) : (n + 1 + zeros n + 8) % 64 = 0 ∧ zeros n < 64 := by
  unfold zeros
  omega

/-- What is left of a message of `total` octets, padded. -/
def padded (total : ℕ) (rest : List UInt8) : List UInt8 :=
  rest ++ 0x80 :: (List.replicate (zeros total) 0 ++ octets64 (8 * total))

/-- The same with `size` for the octets of the length. -/
def paddedWith (size : List UInt8) (total : ℕ) (rest : List UInt8) : List UInt8 :=
  rest ++ 0x80 :: (List.replicate (zeros total) 0 ++ size)

section Chaining

variable {σ : Type*} (compress : σ → List UInt8 → σ) (s : σ) {total : ℕ} {rest : List UInt8}

/-- The chaining value behind the last block, when `rest` is left. -/
def finish (total : ℕ) (rest : List UInt8) : σ := (blocks (padded total rest)).foldl compress s

/-- The same with `size` for the octets of the length. -/
def finishWith (size : List UInt8) (total : ℕ) (rest : List UInt8) : σ :=
  (blocks (paddedWith size total rest)).foldl compress s

theorem finishWith_block (size : List UInt8) (h : 64 ≤ rest.length) :
    finishWith compress s size total rest =
      finishWith compress (compress s (rest.take 64)) size total (rest.drop 64) := by
  have hsplit : paddedWith size total rest =
      rest.take 64 ++ paddedWith size total (rest.drop 64) := by
    unfold paddedWith
    rw [← List.append_assoc, List.take_append_drop]
  unfold finishWith
  rw [hsplit, blocks_append (by simp [h]), List.foldl_cons]

theorem finish_block (h : 64 ≤ rest.length) :
    finish compress s total rest =
      finish compress (compress s (rest.take 64)) total (rest.drop 64) :=
  finishWith_block compress s _ h

theorem finish_blocks (m : List UInt8) :
    finish compress s total m = finish compress ((blocks m).foldl compress s) total (tail m) := by
  induction hn : m.length using Nat.strongRecOn generalizing s m with
  | ind n ih =>
    by_cases h : 64 ≤ m.length
    · have hshorter : (m.drop 64).length < n := by
        rw [List.length_drop]
        omega
      rw [finish_block compress s h, ih _ hshorter _ (m.drop 64) rfl, blocks_block h, tail_block h,
        List.foldl_cons]
    · rw [blocks_short (by omega), tail_short (by omega), List.foldl_nil]

theorem finishWith_one {size : List UInt8} (hsize : size.length = 8)
    (hmod : total % 64 = rest.length) (h : rest.length ≤ 55) :
    finishWith compress s size total rest =
      compress s (rest ++ 0x80 :: (List.replicate (55 - rest.length) 0 ++ size)) := by
  have hzeros : zeros total = 55 - rest.length := by
    have hspec := zeros_spec total
    omega
  unfold finishWith paddedWith
  rw [hzeros, ← List.append_nil (rest ++ _), blocks_append (by simp [hsize]; omega), blocks_nil]
  simp

/-- A longer rest leaves the length to a block of its own. -/
theorem finishWith_two {size : List UInt8} (hsize : size.length = 8)
    (hmod : total % 64 = rest.length) (h : 55 < rest.length) :
    finishWith compress s size total rest =
      compress (compress s (rest ++ 0x80 :: List.replicate (63 - rest.length) 0))
        (List.replicate 56 0 ++ size) := by
  have hzeros : zeros total = (63 - rest.length) + 56 := by
    have hspec := zeros_spec total
    have hrest := Nat.mod_lt total (by decide : 0 < 64)
    omega
  have hsplit : paddedWith size total rest =
      (rest ++ 0x80 :: List.replicate (63 - rest.length) 0) ++
        ((List.replicate 56 0 ++ size) ++ []) := by
    unfold paddedWith
    rw [hzeros, List.replicate_add]
    simp
  unfold finishWith
  rw [hsplit, blocks_append (by simp; omega), blocks_append (by simp [hsize]), blocks_nil]
  simp

theorem finish_one (hmod : total % 64 = rest.length) (h : rest.length ≤ 55) :
    finish compress s total rest =
      compress s (rest ++ 0x80 :: (List.replicate (55 - rest.length) 0 ++ octets64 (8 * total))) :=
  finishWith_one compress s (length_octets64 _) hmod h

theorem finish_two (hmod : total % 64 = rest.length) (h : 55 < rest.length) :
    finish compress s total rest =
      compress (compress s (rest ++ 0x80 :: List.replicate (63 - rest.length) 0))
        (List.replicate 56 0 ++ octets64 (8 * total)) :=
  finishWith_two compress s (length_octets64 _) hmod h

end Chaining

def ch (x y z : Word) : Word := (x &&& y) ^^^ (~~~x &&& z)

def parity (x y z : Word) : Word := x ^^^ y ^^^ z

def maj (x y z : Word) : Word := (x &&& y) ^^^ (x &&& z) ^^^ (y &&& z)

/-- The first bits of the fractional part of the `k`th root of `p`. -/
def rootBits (k p : ℕ) : Word := BitVec.ofNat 32 (Nat.nthRoot k (p * 2 ^ (32 * k)))

namespace Sha1

def f (t : ℕ) : Word → Word → Word → Word :=
  if t < 20 then ch else if t < 40 then parity else if t < 60 then maj else parity

def k (t : ℕ) : Word :=
  if t < 20 then 0x5A827999 else if t < 40 then 0x6ED9EBA1 else if t < 60 then 0x8F1BBCDC
  else 0xCA62C1D6

@[ext] structure Chain where
  (a b c d e : Word)
  deriving DecidableEq

/-- The message schedule. -/
def schedule (m : ℕ → Word) (t : ℕ) : Word :=
  if t < 16 then m t
  else (schedule m (t - 3) ^^^ schedule m (t - 8) ^^^ schedule m (t - 14) ^^^
    schedule m (t - 16)).rotateLeft 1
termination_by t

theorem schedule_start (m : ℕ → Word) {t : ℕ} (h : t < 16) : schedule m t = m t := by
  rw [schedule, if_pos h]

theorem schedule_step (m : ℕ → Word) {t : ℕ} (h : 16 ≤ t) :
    schedule m t = (schedule m (t - 3) ^^^ schedule m (t - 8) ^^^ schedule m (t - 14) ^^^
      schedule m (t - 16)).rotateLeft 1 := by
  rw [schedule, if_neg (Nat.not_lt.mpr h)]

def round (s : Chain) (t : ℕ) (w : Word) : Chain where
  a := s.a.rotateLeft 5 + f t s.b s.c s.d + s.e + k t + w
  b := s.a
  c := s.b.rotateLeft 30
  d := s.c
  e := s.d

def rounds (m : ℕ → Word) (s : Chain) (n : ℕ) : Chain :=
  (List.range n).foldl (fun s t => round s t (schedule m t)) s

theorem rounds_succ (m : ℕ → Word) (s : Chain) (n : ℕ) :
    rounds m s (n + 1) = round (rounds m s n) n (schedule m n) := by
  simp [rounds, List.range_succ]

def compress (s : Chain) (block : List UInt8) : Chain :=
  let r := rounds (wordAt block) s 80
  ⟨s.a + r.a, s.b + r.b, s.c + r.c, s.d + r.d, s.e + r.e⟩

def init : Chain := ⟨0x67452301, 0xEFCDAB89, 0x98BADCFE, 0x10325476, 0xC3D2E1F0⟩

def Chain.octets (s : Chain) : List UInt8 :=
  [s.a, s.b, s.c, s.d, s.e].flatMap SecureHash.octets

def digest (m : List UInt8) : List UInt8 := (finish compress init m.length m).octets

end Sha1

namespace Sha256

def bigSigma0 (x : Word) : Word := x.rotateRight 2 ^^^ x.rotateRight 13 ^^^ x.rotateRight 22

def bigSigma1 (x : Word) : Word := x.rotateRight 6 ^^^ x.rotateRight 11 ^^^ x.rotateRight 25

def smallSigma0 (x : Word) : Word := x.rotateRight 7 ^^^ x.rotateRight 18 ^^^ x >>> 3

def smallSigma1 (x : Word) : Word := x.rotateRight 17 ^^^ x.rotateRight 19 ^^^ x >>> 10

/-- The first 64 primes. -/
def primes : List ℕ :=
  [2, 3, 5, 7, 11, 13, 17, 19, 23, 29, 31, 37, 41, 43, 47, 53, 59, 61, 67, 71, 73, 79, 83, 89, 97,
    101, 103, 107, 109, 113, 127, 131, 137, 139, 149, 151, 157, 163, 167, 173, 179, 181, 191, 193,
    197, 199, 211, 223, 227, 229, 233, 239, 241, 251, 257, 263, 269, 271, 277, 281, 283, 293, 307,
    311]

def k (t : ℕ) : Word := rootBits 3 (primes.getD t 0)

@[ext] structure Chain where
  (a b c d e f g h : Word)
  deriving DecidableEq

def schedule (m : ℕ → Word) (t : ℕ) : Word :=
  if t < 16 then m t
  else smallSigma1 (schedule m (t - 2)) + schedule m (t - 7) + smallSigma0 (schedule m (t - 15)) +
    schedule m (t - 16)
termination_by t

theorem schedule_start (m : ℕ → Word) {t : ℕ} (h : t < 16) : schedule m t = m t := by
  rw [schedule, if_pos h]

theorem schedule_step (m : ℕ → Word) {t : ℕ} (h : 16 ≤ t) :
    schedule m t = smallSigma1 (schedule m (t - 2)) + schedule m (t - 7) +
      smallSigma0 (schedule m (t - 15)) + schedule m (t - 16) := by
  rw [schedule, if_neg (Nat.not_lt.mpr h)]

def round (s : Chain) (t : ℕ) (w : Word) : Chain :=
  let t₁ := s.h + bigSigma1 s.e + ch s.e s.f s.g + k t + w
  let t₂ := bigSigma0 s.a + maj s.a s.b s.c
  ⟨t₁ + t₂, s.a, s.b, s.c, s.d + t₁, s.e, s.f, s.g⟩

def rounds (m : ℕ → Word) (s : Chain) (n : ℕ) : Chain :=
  (List.range n).foldl (fun s t => round s t (schedule m t)) s

theorem rounds_succ (m : ℕ → Word) (s : Chain) (n : ℕ) :
    rounds m s (n + 1) = round (rounds m s n) n (schedule m n) := by
  simp [rounds, List.range_succ]

def compress (s : Chain) (block : List UInt8) : Chain :=
  let r := rounds (wordAt block) s 64
  ⟨s.a + r.a, s.b + r.b, s.c + r.c, s.d + r.d, s.e + r.e, s.f + r.f, s.g + r.g, s.h + r.h⟩

def init : Chain :=
  ⟨rootBits 2 2, rootBits 2 3, rootBits 2 5, rootBits 2 7, rootBits 2 11, rootBits 2 13,
    rootBits 2 17, rootBits 2 19⟩

def Chain.octets (s : Chain) : List UInt8 :=
  [s.a, s.b, s.c, s.d, s.e, s.f, s.g, s.h].flatMap SecureHash.octets

theorem Chain.octets_injective : Function.Injective Chain.octets := by
  intro s t h
  simp only [Chain.octets, List.flatMap_cons, List.flatMap_nil] at h
  obtain ⟨ha, h⟩ := List.append_inj h (by simp)
  obtain ⟨hb, h⟩ := List.append_inj h (by simp)
  obtain ⟨hc, h⟩ := List.append_inj h (by simp)
  obtain ⟨hd, h⟩ := List.append_inj h (by simp)
  obtain ⟨he, h⟩ := List.append_inj h (by simp)
  obtain ⟨hf, h⟩ := List.append_inj h (by simp)
  obtain ⟨hg, h⟩ := List.append_inj h (by simp)
  obtain ⟨hh, -⟩ := List.append_inj h (by simp)
  ext1 <;> apply SecureHash.octets_injective <;> assumption

def digest (m : List UInt8) : List UInt8 := (finish compress init m.length m).octets

end Sha256

end SecureHash
end Foundation
