import Sese.Foundation.Outcome
import Sese.Foundation.SecureHash
import Sese.Util.Region

/-!
# Padding in a buffer

What the hashes write behind the tail of a message: an octet with the first bit set, zeros, and the
number of bits.
-/
namespace Sese

open Foundation

theorem shifts_eq_rotateLeft (w : SecureHash.Word) {n : ℕ} (h : n < 32) :
    w <<< n ||| w >>> (32 - n) = w.rotateLeft n := by
  rw [BitVec.rotateLeft_def, Nat.mod_eq_of_lt h]

theorem word_eq_or (a b c d : UInt8) :
    d.toBitVec.setWidth 32 ||| c.toBitVec.setWidth 32 <<< 8 ||| b.toBitVec.setWidth 32 <<< 16 |||
      a.toBitVec.setWidth 32 <<< 24 = SecureHash.word a b c d := by
  have hor : ∀ (n x y : ℕ), x < 2 ^ n → x ||| y * 2 ^ n = y * 2 ^ n + x := by
    intro n x y hx
    rw [Nat.or_comm, ← Nat.shiftLeft_eq, Nat.shiftLeft_add_eq_or_of_lt hx]
  have ha := a.toNat_lt
  have hb := b.toNat_lt
  have hc := c.toNat_lt
  have hd := d.toNat_lt
  have hsmall : ∀ n ≤ 24, ∀ x : UInt8, x.toNat % 2 ^ 32 * 2 ^ n % 2 ^ 32 = x.toNat * 2 ^ n := by
    intro n hn x
    have hx := x.toNat_lt
    have hpow : 2 ^ n ≤ 2 ^ 24 := Nat.pow_le_pow_right (by decide) hn
    rw [Nat.mod_eq_of_lt (by omega : x.toNat < 2 ^ 32), Nat.mod_eq_of_lt (by nlinarith)]
  apply BitVec.eq_of_toNat_eq
  simp only [SecureHash.toNat_word, BitVec.toNat_or, BitVec.toNat_shiftLeft, BitVec.toNat_setWidth,
    UInt8.toNat_toBitVec, Nat.shiftLeft_eq, hsmall 8 (by decide), hsmall 16 (by decide),
    hsmall 24 (by decide)]
  rw [Nat.mod_eq_of_lt (by omega : d.toNat < 2 ^ 32), hor 8 _ _ hd, hor 16 _ _ (by omega),
    hor 24 _ _ (by omega)]
  omega

theorem toBigEndian32_eq (n : ℕ) : toBigEndian32 n = SecureHash.octets (BitVec.ofNat 32 n) := by
  simp only [toBigEndian32, SecureHash.octets, BitVec.toNat_ofNat, List.cons.injEq,
    ← UInt8.toNat_inj, UInt8.toNat_ofNat', and_true]
  omega

theorem toBigEndian64_eq {total : ℕ} (h : total < 2 ^ 61) :
    toBigEndian64 (total * 8 % 2 ^ 64) = SecureHash.octets64 (8 * total) := by
  have hmod : total * 8 % 2 ^ 64 = 8 * total := by omega
  rw [hmod, toBigEndian64, SecureHash.octets64, toBigEndian32_eq, toBigEndian32_eq]

theorem length_toBigEndian64 (n : ℕ) : (toBigEndian64 n).length = 8 := by
  simp [toBigEndian64, toBigEndian32]

variable {rest old : Bytes} {n : ℕ}

theorem store_front {buffer : Bytes} (h : rest.length ≤ buffer.length) :
    store buffer 0 rest = .ok (rest ++ buffer.drop rest.length) := by
  have hstore : store ([] ++ buffer) 0 rest = .ok ([] ++ (rest ++ buffer.drop rest.length)) :=
    store_left rfl h
  simpa using hstore

theorem store_one (h : 1 ≤ old.length) :
    store (rest ++ old) rest.length [0x80] = .ok ((rest ++ [0x80]) ++ old.drop 1) := by
  rw [store_left rfl (by simpa using h)]
  simp

theorem memset_zeros (h : n + 1 ≤ old.length) :
    memset ((rest ++ [0x80]) ++ old.drop 1) (rest.length + 1) 0 n =
      .ok (rest ++ 0x80 :: (List.replicate n 0 ++ old.drop (n + 1))) := by
  rw [memset_eq_store, store_left (by simp) (by simp; omega)]
  simp

theorem memset_one (h : n + 1 ≤ old.length) :
    (memset (rest ++ old) (rest.length + 1) 0 n >>= fun buffer =>
        store buffer rest.length [0x80]) =
      .ok (rest ++ 0x80 :: (List.replicate n 0 ++ old.drop (n + 1))) := by
  cases old with
  | nil => simp at h
  | cons x old =>
    have hsplit : rest ++ x :: old = (rest ++ [x]) ++ old := by simp
    rw [hsplit, memset_eq_store, store_left (by simp) (by simpa using h), ok_bind,
      List.append_assoc, store_append rfl (by simp)]
    simp

theorem store_last {pre last size : Bytes} (hsize : size.length = 8) (hpre : pre.length = 56)
    (hlast : last.length = 8) : store (pre ++ last) 56 size = .ok (pre ++ size) := by
  rw [store_left hpre.symm (by omega), hsize, List.drop_of_length_le hlast.le, List.append_nil]

end Sese
