import Sese.Foundation.SecureHash
import Sese.Util.Bytes

/-!
# Words of four octets

`Bitset32`, a 32 bit word whose octets stand in the order of their significance on every machine.
The rotations move the octets first and then the bits between neighbours. `get` is the word that the
octets are, and every operation is that of words.
-/
namespace Sese

open Foundation

structure Bitset32 where
  (byte0 byte1 byte2 byte3 : UInt8)
  deriving DecidableEq

namespace Bitset32

/-- The constructor that takes a `uint32_t`. -/
def ofUInt32 (value : BitVec 32) : Bitset32 where
  byte0 := .ofNat (value.toNat / 2 ^ 24)
  byte1 := .ofNat (value.toNat / 2 ^ 16)
  byte2 := .ofNat (value.toNat / 2 ^ 8)
  byte3 := .ofNat value.toNat

def get (b : Bitset32) : BitVec 32 := SecureHash.word b.byte0 b.byte1 b.byte2 b.byte3

/-- The macro `XX` of the rotations: the low bits of one octet and the high bits of the next. -/
def xx (low high up down bt1 bt2 : UInt8) : UInt8 := (bt1 &&& low) <<< up ||| (bt2 &&& high) >>> down

variable (b : Bitset32)

def rightShift3 : Bitset32 :=
  let xx := xx 0b00000111 0b11111000 5 3
  ⟨(0 : UInt8) ||| (b.byte0 &&& 0b11111000) >>> 3, xx b.byte0 b.byte1, xx b.byte1 b.byte2, xx b.byte2 b.byte3⟩

def rightShift10 : Bitset32 :=
  let xx := xx 0b00000011 0b11111100 6 2
  ⟨0, (0 : UInt8) ||| (b.byte0 &&& 0b11111100) >>> 2, xx b.byte0 b.byte1, xx b.byte1 b.byte2⟩

def rightRotate2 : Bitset32 :=
  let xx := xx 0b00000011 0b11111100 6 2
  ⟨xx b.byte3 b.byte0, xx b.byte0 b.byte1, xx b.byte1 b.byte2, xx b.byte2 b.byte3⟩

def rightRotate6 : Bitset32 :=
  let xx := xx 0b00111111 0b11000000 2 6
  ⟨xx b.byte3 b.byte0, xx b.byte0 b.byte1, xx b.byte1 b.byte2, xx b.byte2 b.byte3⟩

def rightRotate7 : Bitset32 :=
  let xx := xx 0b01111111 0b10000000 1 7
  ⟨xx b.byte3 b.byte0, xx b.byte0 b.byte1, xx b.byte1 b.byte2, xx b.byte2 b.byte3⟩

def rightRotate11 : Bitset32 :=
  let xx := xx 0b00000111 0b11111000 5 3
  ⟨xx b.byte2 b.byte3, xx b.byte3 b.byte0, xx b.byte0 b.byte1, xx b.byte1 b.byte2⟩

def rightRotate13 : Bitset32 :=
  let xx := xx 0b00011111 0b11100000 3 5
  ⟨xx b.byte2 b.byte3, xx b.byte3 b.byte0, xx b.byte0 b.byte1, xx b.byte1 b.byte2⟩

def rightRotate17 : Bitset32 :=
  let xx := xx 0b00000001 0b11111110 7 1
  ⟨xx b.byte1 b.byte2, xx b.byte2 b.byte3, xx b.byte3 b.byte0, xx b.byte0 b.byte1⟩

def rightRotate18 : Bitset32 :=
  let xx := xx 0b00000011 0b11111100 6 2
  ⟨xx b.byte1 b.byte2, xx b.byte2 b.byte3, xx b.byte3 b.byte0, xx b.byte0 b.byte1⟩

def rightRotate19 : Bitset32 :=
  let xx := xx 0b00000111 0b11111000 5 3
  ⟨xx b.byte1 b.byte2, xx b.byte2 b.byte3, xx b.byte3 b.byte0, xx b.byte0 b.byte1⟩

def rightRotate22 : Bitset32 :=
  let xx := xx 0b00111111 0b11000000 2 6
  ⟨xx b.byte1 b.byte2, xx b.byte2 b.byte3, xx b.byte3 b.byte0, xx b.byte0 b.byte1⟩

def rightRotate25 : Bitset32 :=
  let xx := xx 0b00000001 0b11111110 7 1
  ⟨xx b.byte0 b.byte1, xx b.byte1 b.byte2, xx b.byte2 b.byte3, xx b.byte3 b.byte0⟩

instance : AndOp Bitset32 where
  and x y := ⟨x.byte0 &&& y.byte0, x.byte1 &&& y.byte1, x.byte2 &&& y.byte2, x.byte3 &&& y.byte3⟩

instance : XorOp Bitset32 where
  xor x y := ⟨x.byte0 ^^^ y.byte0, x.byte1 ^^^ y.byte1, x.byte2 ^^^ y.byte2, x.byte3 ^^^ y.byte3⟩

instance : Complement Bitset32 where
  complement x := ⟨~~~x.byte0, ~~~x.byte1, ~~~x.byte2, ~~~x.byte3⟩

instance : Add Bitset32 where
  add x y := ofUInt32 (x.get + y.get)

@[simp] theorem get_ofUInt32 (value : BitVec 32) : (ofUInt32 value).get = value := by
  have h := value.isLt
  apply BitVec.eq_of_toNat_eq
  simp only [get, ofUInt32, SecureHash.toNat_word, UInt8.toNat_ofNat']
  omega

@[simp] theorem get_add (x y : Bitset32) : (x + y).get = x.get + y.get := get_ofUInt32 _

@[simp] theorem get_and (x y : Bitset32) : (x &&& y).get = x.get &&& y.get :=
  (SecureHash.word_and _ _ _ _ _ _ _ _).symm

@[simp] theorem get_xor (x y : Bitset32) : (x ^^^ y).get = x.get ^^^ y.get :=
  (SecureHash.word_xor _ _ _ _ _ _ _ _).symm

@[simp] theorem get_not (x : Bitset32) : (~~~x).get = ~~~x.get := (SecureHash.word_not _ _ _ _).symm

/-- `XX` with the masks and shifts for `n` bits. -/
def move (n : ℕ) : UInt8 → UInt8 → UInt8 :=
  xx (.ofNat (2 ^ n - 1)) (.ofNat (256 - 2 ^ n)) (.ofNat (8 - n)) (.ofNat n)

theorem low_bits : ∀ n < 8, ∀ i < 256,
    ((UInt8.ofNat i &&& UInt8.ofNat (2 ^ n - 1)) <<< UInt8.ofNat (8 - n)).toNat =
      if n = 0 then 0 else i % 2 ^ n * 2 ^ (8 - n) := by
  decide +kernel

theorem high_bits : ∀ n < 8, ∀ i < 256,
    ((UInt8.ofNat i &&& UInt8.ofNat (256 - 2 ^ n)) >>> UInt8.ofNat n).toNat = i / 2 ^ n := by
  decide +kernel

theorem toNat_move {n : ℕ} (hpos : 0 < n) (h : n < 8) (bt1 bt2 : UInt8) :
    (move n bt1 bt2).toNat = bt1.toNat % 2 ^ n * 2 ^ (8 - n) + bt2.toNat / 2 ^ n := by
  have hlow := low_bits n h bt1.toNat bt1.toNat_lt
  have hhigh := high_bits n h bt2.toNat bt2.toNat_lt
  rw [UInt8.ofNat_toNat] at hlow hhigh
  rw [if_neg hpos.ne'] at hlow
  have hfits : bt2.toNat / 2 ^ n < 2 ^ (8 - n) := by
    rw [Nat.div_lt_iff_lt_mul (by positivity), ← pow_add, Nat.sub_add_cancel h.le]
    exact bt2.toNat_lt
  unfold move xx
  rw [UInt8.toNat_or, hlow, hhigh, ← Nat.shiftLeft_eq, Nat.shiftLeft_add_eq_or_of_lt hfits]

theorem word_move {n : ℕ} (hpos : 0 < n) (h : n < 8) (p q r s : UInt8) :
    SecureHash.word (move n s p) (move n p q) (move n q r) (move n r s) =
      (SecureHash.word p q r s).rotateRight n := by
  have hp := p.toNat_lt
  have hq := q.toNat_lt
  have hr := r.toNat_lt
  have hs := s.toNat_lt
  apply BitVec.eq_of_toNat_eq
  rw [SecureHash.toNat_rotateRight _ (by omega), SecureHash.toNat_word, SecureHash.toNat_word]
  simp only [toNat_move hpos h]
  interval_cases n <;> omega

/-- The masks and shifts of the source. -/
theorem xx_eq_move :
    xx 0b00000001 0b11111110 7 1 = move 1 ∧ xx 0b00000011 0b11111100 6 2 = move 2 ∧
      xx 0b00000111 0b11111000 5 3 = move 3 ∧ xx 0b00011111 0b11100000 3 5 = move 5 ∧
      xx 0b00111111 0b11000000 2 6 = move 6 ∧ xx 0b01111111 0b10000000 1 7 = move 7 :=
  ⟨rfl, rfl, rfl, rfl, rfl, rfl⟩

/-- First whole octets move, then bits. -/
theorem word_move_octets {w : BitVec 32} {k n : ℕ} (hpos : 0 < n) (h : n < 8) (hk : k + n < 32)
    {p q r s : UInt8} (hoctets : w.rotateRight k = SecureHash.word p q r s) :
    SecureHash.word (move n s p) (move n p q) (move n q r) (move n r s) = w.rotateRight (k + n) := by
  rw [word_move hpos h, ← hoctets, SecureHash.rotateRight_rotateRight _ hk]

section Rotations

variable (n : ℕ) (hpos : 0 < n) (h : n < 8)
include hpos h

theorem move_0 : SecureHash.word (move n b.byte3 b.byte0) (move n b.byte0 b.byte1)
    (move n b.byte1 b.byte2) (move n b.byte2 b.byte3) = b.get.rotateRight n :=
  word_move hpos h b.byte0 b.byte1 b.byte2 b.byte3

theorem move_8 : SecureHash.word (move n b.byte2 b.byte3) (move n b.byte3 b.byte0)
    (move n b.byte0 b.byte1) (move n b.byte1 b.byte2) = b.get.rotateRight (8 + n) :=
  word_move_octets hpos h (by omega) (SecureHash.rotateRight_8 _ _ _ _)

theorem move_16 : SecureHash.word (move n b.byte1 b.byte2) (move n b.byte2 b.byte3)
    (move n b.byte3 b.byte0) (move n b.byte0 b.byte1) = b.get.rotateRight (16 + n) :=
  word_move_octets hpos h (by omega) (SecureHash.rotateRight_16 _ _ _ _)

theorem move_24 : SecureHash.word (move n b.byte0 b.byte1) (move n b.byte1 b.byte2)
    (move n b.byte2 b.byte3) (move n b.byte3 b.byte0) = b.get.rotateRight (24 + n) :=
  word_move_octets hpos h (by omega) (SecureHash.rotateRight_24 _ _ _ _)

end Rotations

@[simp] theorem get_rightRotate2 : b.rightRotate2.get = b.get.rotateRight 2 := by
  simpa only [get, rightRotate2, xx_eq_move] using move_0 b 2 (by decide) (by decide)

@[simp] theorem get_rightRotate6 : b.rightRotate6.get = b.get.rotateRight 6 := by
  simpa only [get, rightRotate6, xx_eq_move] using move_0 b 6 (by decide) (by decide)

@[simp] theorem get_rightRotate7 : b.rightRotate7.get = b.get.rotateRight 7 := by
  simpa only [get, rightRotate7, xx_eq_move] using move_0 b 7 (by decide) (by decide)

@[simp] theorem get_rightRotate11 : b.rightRotate11.get = b.get.rotateRight 11 := by
  simpa only [get, rightRotate11, xx_eq_move] using move_8 b 3 (by decide) (by decide)

@[simp] theorem get_rightRotate13 : b.rightRotate13.get = b.get.rotateRight 13 := by
  simpa only [get, rightRotate13, xx_eq_move] using move_8 b 5 (by decide) (by decide)

@[simp] theorem get_rightRotate17 : b.rightRotate17.get = b.get.rotateRight 17 := by
  simpa only [get, rightRotate17, xx_eq_move] using move_16 b 1 (by decide) (by decide)

@[simp] theorem get_rightRotate18 : b.rightRotate18.get = b.get.rotateRight 18 := by
  simpa only [get, rightRotate18, xx_eq_move] using move_16 b 2 (by decide) (by decide)

@[simp] theorem get_rightRotate19 : b.rightRotate19.get = b.get.rotateRight 19 := by
  simpa only [get, rightRotate19, xx_eq_move] using move_16 b 3 (by decide) (by decide)

@[simp] theorem get_rightRotate22 : b.rightRotate22.get = b.get.rotateRight 22 := by
  simpa only [get, rightRotate22, xx_eq_move] using move_16 b 6 (by decide) (by decide)

@[simp] theorem get_rightRotate25 : b.rightRotate25.get = b.get.rotateRight 25 := by
  simpa only [get, rightRotate25, xx_eq_move] using move_24 b 1 (by decide) (by decide)

theorem toNat_high (n : ℕ) (h : n < 8) (x : UInt8) :
    ((x &&& UInt8.ofNat (256 - 2 ^ n)) >>> UInt8.ofNat n).toNat = x.toNat / 2 ^ n := by
  simpa using high_bits n h x.toNat x.toNat_lt

@[simp] theorem get_rightShift3 : b.rightShift3.get = b.get >>> 3 := by
  have h0 := b.byte0.toNat_lt
  have h1 := b.byte1.toNat_lt
  have h2 := b.byte2.toNat_lt
  have h3 := b.byte3.toNat_lt
  have hhigh : ((b.byte0 &&& 0b11111000) >>> 3).toNat = b.byte0.toNat / 2 ^ 3 :=
    toNat_high 3 (by decide) b.byte0
  apply BitVec.eq_of_toNat_eq
  simp only [get, rightShift3, xx_eq_move, BitVec.toNat_ushiftRight, SecureHash.toNat_word,
    toNat_move (by decide : 0 < 3) (by decide), UInt8.zero_or, hhigh, Nat.shiftRight_eq_div_pow]
  omega

@[simp] theorem get_rightShift10 : b.rightShift10.get = b.get >>> 10 := by
  have h0 := b.byte0.toNat_lt
  have h1 := b.byte1.toNat_lt
  have h2 := b.byte2.toNat_lt
  have h3 := b.byte3.toNat_lt
  have hhigh : ((b.byte0 &&& 0b11111100) >>> 2).toNat = b.byte0.toNat / 2 ^ 2 :=
    toNat_high 2 (by decide) b.byte0
  apply BitVec.eq_of_toNat_eq
  simp only [get, rightShift10, xx_eq_move, BitVec.toNat_ushiftRight, SecureHash.toNat_word,
    toNat_move (by decide : 0 < 2) (by decide), UInt8.zero_or, hhigh, Nat.shiftRight_eq_div_pow,
    UInt8.toNat_zero]
  omega

end Bitset32
end Sese
