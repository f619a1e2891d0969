import Sese.Foundation.SecureHash
import Sese.Foundation.Sines

/-!
# MD5

The hash of RFC 1321. The padding is that of `SecureHash`, but words and the length have their least
significant octet first. The constants are taken from the sine, and `table` is what they are.
-/
namespace Foundation
namespace Md5

open SecureHash (Word finishWith)

def wordAt (block : List UInt8) (t : ℕ) : Word :=
  SecureHash.word (block.getD (4 * t + 3) 0) (block.getD (4 * t + 2) 0) (block.getD (4 * t + 1) 0)
    (block.getD (4 * t) 0)

def octets (w : Word) : List UInt8 := (SecureHash.octets w).reverse

def octets64 (n : ℕ) : List UInt8 :=
  octets (BitVec.ofNat 32 n) ++ octets (BitVec.ofNat 32 (n / 2 ^ 32))

@[simp] theorem length_octets (w : Word) : (octets w).length = 4 := by simp [octets]

@[simp] theorem length_octets64 (n : ℕ) : (octets64 n).length = 8 := by simp [octets64]

def f (x y z : Word) : Word := (x &&& y) ||| (~~~x &&& z)

def g (x y z : Word) : Word := (x &&& z) ||| (y &&& ~~~z)

def h (x y z : Word) : Word := x ^^^ y ^^^ z

def i (x y z : Word) : Word := y ^^^ (x ||| ~~~z)

def mix (t : ℕ) : Word → Word → Word → Word :=
  if t < 16 then f else if t < 32 then g else if t < 48 then h else i

/-- The word of the block that step `t` adds. -/
def place (t : ℕ) : ℕ :=
  if t < 16 then t else if t < 32 then (5 * t + 1) % 16 else if t < 48 then (3 * t + 5) % 16
  else 7 * t % 16

def shift (t : ℕ) : ℕ :=
  (if t < 16 then [7, 12, 17, 22] else if t < 32 then [5, 9, 14, 20]
    else if t < 48 then [4, 11, 16, 23] else [6, 10, 15, 21]).getD (t % 4) 0

/-- The integer part of `2 ^ 32` times the sine of `t + 1` radians, without its sign. -/
noncomputable def sine (t : ℕ) : Word := BitVec.ofNat 32 ⌊2 ^ 32 * |Real.sin (t + 1 : ℕ)|⌋₊

def table : List ℕ :=
  [0xd76aa478, 0xe8c7b756, 0x242070db, 0xc1bdceee, 0xf57c0faf, 0x4787c62a, 0xa8304613,
    0xfd469501, 0x698098d8, 0x8b44f7af, 0xffff5bb1, 0x895cd7be, 0x6b901122, 0xfd987193,
    0xa679438e, 0x49b40821, 0xf61e2562, 0xc040b340, 0x265e5a51, 0xe9b6c7aa, 0xd62f105d,
    0x02441453, 0xd8a1e681, 0xe7d3fbc8, 0x21e1cde6, 0xc33707d6, 0xf4d50d87, 0x455a14ed,
    0xa9e3e905, 0xfcefa3f8, 0x676f02d9, 0x8d2a4c8a, 0xfffa3942, 0x8771f681, 0x6d9d6122,
    0xfde5380c, 0xa4beea44, 0x4bdecfa9, 0xf6bb4b60, 0xbebfbc70, 0x289b7ec6, 0xeaa127fa,
    0xd4ef3085, 0x04881d05, 0xd9d4d039, 0xe6db99e5, 0x1fa27cf8, 0xc4ac5665, 0xf4292244,
    0x432aff97, 0xab9423a7, 0xfc93a039, 0x655b59c3, 0x8f0ccc92, 0xffeff47d, 0x85845dd1,
    0x6fa87e4f, 0xfe2ce6e0, 0xa3014314, 0x4e0811a1, 0xf7537e82, 0xbd3af235, 0x2ad7d2bb,
    0xeb86d391]

theorem sine_eq {t : ℕ} (ht : t < 64) : sine t = BitVec.ofNat 32 (table.getD t 0) := by
  have hsines : ∀ t < 64,
      (table.getD t 0 : ℕ) * Sines.scale + 2 ^ 32 * Sines.error (t + 1) ≤
        2 ^ 32 * |(Sines.turns (t + 1)).2| ∧
      2 ^ 32 * |(Sines.turns (t + 1)).2| + 2 ^ 32 * Sines.error (t + 1) <
        ((table.getD t 0 : ℕ) + 1) * Sines.scale := by
    decide +kernel
  obtain ⟨hle, hlt⟩ := hsines t ht
  rw [sine, Sines.floor_sin hle hlt]

@[ext] structure Chain where
  (a b c d : Word)
  deriving DecidableEq

/-- One step; the names of the words move on by one place. -/
noncomputable def step (s : Chain) (t : ℕ) (x : Word) : Chain where
  a := s.d
  b := s.b + (s.a + mix t s.b s.c s.d + x + sine t).rotateLeft (shift t)
  c := s.b
  d := s.c

noncomputable def steps (m : ℕ → Word) (s : Chain) (n : ℕ) : Chain :=
  (List.range n).foldl (fun s t => step s t (m (place t))) s

theorem steps_succ (m : ℕ → Word) (s : Chain) (n : ℕ) :
    steps m s (n + 1) = step (steps m s n) n (m (place n)) := by
  simp [steps, List.range_succ]

noncomputable def compress (s : Chain) (block : List UInt8) : Chain :=
  let r := steps (wordAt block) s 64
  ⟨s.a + r.a, s.b + r.b, s.c + r.c, s.d + r.d⟩

def init : Chain := ⟨0x67452301, 0xEFCDAB89, 0x98BADCFE, 0x10325476⟩

def Chain.octets (s : Chain) : List UInt8 := [s.a, s.b, s.c, s.d].flatMap Md5.octets

/-- The message digest; of the length the low 64 bits count. -/
noncomputable def digest (m : List UInt8) : List UInt8 :=
  (finishWith compress init (octets64 (8 * m.length)) m.length m).octets

end Md5
end Foundation
