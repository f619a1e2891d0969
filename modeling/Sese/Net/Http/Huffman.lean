import Sese.Foundation.PrefixCode
import Sese.Util.Bytes

/-!
# Huffman coding of header strings

`HUFFMAN_TABLE` of `HPACK.h`, the encoder `huffman_encoder_t` with its one byte
of pending bits, and the decoder `huffman_tree_t`, a tree built by inserting the
257 words of the table one after the other.

The table is not prefix free: the word of octet 142 begins that of 9, the word
of 168 that of 174, and the word of 249 those of 10, 13 and 22. The tree stops
at the shorter word, so exactly these five octets are not read back.
-/
namespace Sese.Net.Http

open Foundation

/-- Width and code word of each octet, and of the end of string as the last entry. -/
def huffmanTable : List (ℕ × ℕ) :=
   [(13, 0b1111111111000), (23, 0b11111111111111111011000), (28, 0b1111111111111111111111100010),
    (28, 0b1111111111111111111111100011), (28, 0b1111111111111111111111100100),
    (28, 0b1111111111111111111111100101), (28, 0b1111111111111111111111100110),
    (28, 0b1111111111111111111111100111), (28, 0b1111111111111111111111101000),
    (24, 0b111111111111111111101010), (30, 0b111111111111111111111111111100),
    (28, 0b1111111111111111111111101001), (28, 0b1111111111111111111111101010),
    (30, 0b111111111111111111111111111101), (28, 0b1111111111111111111111101011),
    (28, 0b1111111111111111111111101100), (28, 0b1111111111111111111111101101),
    (28, 0b1111111111111111111111101110), (28, 0b1111111111111111111111101111),
    (28, 0b1111111111111111111111110000), (28, 0b1111111111111111111111110001),
    (28, 0b1111111111111111111111110010), (30, 0b111111111111111111111111111110),
    (28, 0b1111111111111111111111110011), (28, 0b1111111111111111111111110100),
    (28, 0b1111111111111111111111110101), (28, 0b1111111111111111111111110110),
    (28, 0b1111111111111111111111110111), (28, 0b1111111111111111111111111000),
    (28, 0b1111111111111111111111111001), (28, 0b1111111111111111111111111010),
    (28, 0b1111111111111111111111111011), (6, 0b010100), (10, 0b1111111000), (10, 0b1111111001),
    (12, 0b111111111010), (13, 0b1111111111001), (6, 0b010101), (8, 0b11111000),
    (11, 0b11111111010), (10, 0b1111111010), (10, 0b1111111011), (8, 0b11111001),
    (11, 0b11111111011), (8, 0b11111010), (6, 0b010110), (6, 0b010111), (6, 0b011000),
    (5, 0b00000), (5, 0b00001), (5, 0b00010), (6, 0b011001), (6, 0b011010), (6, 0b011011),
    (6, 0b011100), (6, 0b011101), (6, 0b011110), (6, 0b011111), (7, 0b1011100), (8, 0b11111011),
    (15, 0b111111111111100), (6, 0b100000), (12, 0b111111111011), (10, 0b1111111100),
    (13, 0b1111111111010), (6, 0b100001), (7, 0b1011101), (7, 0b1011110), (7, 0b1011111),
    (7, 0b1100000), (7, 0b1100001), (7, 0b1100010), (7, 0b1100011), (7, 0b1100100),
    (7, 0b1100101), (7, 0b1100110), (7, 0b1100111), (7, 0b1101000), (7, 0b1101001),
    (7, 0b1101010), (7, 0b1101011), (7, 0b1101100), (7, 0b1101101), (7, 0b1101110),
    (7, 0b1101111), (7, 0b1110000), (7, 0b1110001), (7, 0b1110010), (8, 0b11111100),
    (7, 0b1110011), (8, 0b11111101), (13, 0b1111111111011), (19, 0b1111111111111110000),
    (13, 0b1111111111100), (14, 0b11111111111100), (6, 0b100010), (15, 0b111111111111101),
    (5, 0b00011), (6, 0b100011), (5, 0b00100), (6, 0b100100), (5, 0b00101), (6, 0b100101),
    (6, 0b100110), (6, 0b100111), (5, 0b00110), (7, 0b1110100), (7, 0b1110101), (6, 0b101000),
    (6, 0b101001), (6, 0b101010), (5, 0b00111), (6, 0b101011), (7, 0b1110110), (6, 0b101100),
    (5, 0b01000), (5, 0b01001), (6, 0b101101), (7, 0b1110111), (7, 0b1111000), (7, 0b1111001),
    (7, 0b1111010), (7, 0b1111011), (15, 0b111111111111110), (11, 0b11111111100),
    (14, 0b11111111111101), (13, 0b1111111111101), (28, 0b1111111111111111111111111100),
    (20, 0b11111111111111100110), (22, 0b1111111111111111010010), (20, 0b11111111111111100111),
    (20, 0b11111111111111101000), (22, 0b1111111111111111010011), (22, 0b1111111111111111010100),
    (22, 0b1111111111111111010101), (23, 0b11111111111111111011001),
    (22, 0b1111111111111111010110), (23, 0b11111111111111111011010),
    (23, 0b11111111111111111011011), (23, 0b11111111111111111011100),
    (23, 0b11111111111111111011101), (23, 0b11111111111111111011110),
    (23, 0b11111111111111111110101), (23, 0b11111111111111111011111),
    (24, 0b111111111111111111101100), (24, 0b111111111111111111101101),
    (22, 0b1111111111111111010111), (23, 0b11111111111111111100000),
    (24, 0b111111111111111111101110), (23, 0b11111111111111111100001),
    (23, 0b11111111111111111100010), (23, 0b11111111111111111100011),
    (23, 0b11111111111111111100100), (21, 0b111111111111111011100),
    (22, 0b1111111111111111011000), (23, 0b11111111111111111100101),
    (22, 0b1111111111111111011001), (23, 0b11111111111111111100110),
    (23, 0b11111111111111111100111), (24, 0b111111111111111111101111),
    (22, 0b1111111111111111011010), (21, 0b111111111111111011101), (20, 0b11111111111111101001),
    (22, 0b1111111111111111011011), (22, 0b1111111111111111011100),
    (23, 0b11111111111111111101000), (23, 0b11111111111111111101001),
    (21, 0b111111111111111011110), (22, 0b1111111111111111110101), (22, 0b1111111111111111011101),
    (22, 0b1111111111111111011110), (24, 0b111111111111111111110000),
    (21, 0b111111111111111011111), (22, 0b1111111111111111011111),
    (23, 0b11111111111111111101011), (23, 0b11111111111111111101100),
    (21, 0b111111111111111100000), (21, 0b111111111111111100001), (22, 0b1111111111111111100000),
    (21, 0b111111111111111100010), (23, 0b11111111111111111101101),
    (22, 0b1111111111111111100001), (23, 0b11111111111111111101110),
    (23, 0b11111111111111111101111), (20, 0b11111111111111101010), (22, 0b1111111111111111100010),
    (22, 0b1111111111111111100011), (22, 0b1111111111111111100100),
    (23, 0b11111111111111111110000), (22, 0b1111111111111111100101),
    (22, 0b1111111111111111100110), (23, 0b11111111111111111110001),
    (26, 0b11111111111111111111100000), (26, 0b11111111111111111111100001),
    (20, 0b11111111111111101011), (19, 0b1111111111111110001), (22, 0b1111111111111111100111),
    (23, 0b11111111111111111110010), (22, 0b1111111111111111101000),
    (25, 0b1111111111111111111101100), (26, 0b11111111111111111111100010),
    (26, 0b11111111111111111111100011), (26, 0b11111111111111111111100100),
    (27, 0b111111111111111111111011110), (27, 0b111111111111111111111011111),
    (26, 0b11111111111111111111100101), (24, 0b111111111111111111110001),
    (25, 0b1111111111111111111101101), (19, 0b1111111111111110010), (21, 0b111111111111111100011),
    (26, 0b11111111111111111111100110), (27, 0b111111111111111111111100000),
    (27, 0b111111111111111111111100001), (26, 0b11111111111111111111100111),
    (27, 0b111111111111111111111100010), (24, 0b111111111111111111110010),
    (21, 0b111111111111111100100), (21, 0b111111111111111100101),
    (26, 0b11111111111111111111101000), (26, 0b11111111111111111111101001),
    (28, 0b1111111111111111111111111101), (27, 0b111111111111111111111100011),
    (27, 0b111111111111111111111100100), (27, 0b111111111111111111111100101),
    (20, 0b11111111111111101100), (24, 0b111111111111111111110011), (20, 0b11111111111111101101),
    (21, 0b111111111111111100110), (22, 0b1111111111111111101001), (21, 0b111111111111111100111),
    (21, 0b111111111111111101000), (23, 0b11111111111111111110011),
    (22, 0b1111111111111111101010), (22, 0b1111111111111111101011),
    (25, 0b1111111111111111111101110), (25, 0b1111111111111111111101111),
    (24, 0b111111111111111111110100), (24, 0b111111111111111111110101),
    (26, 0b11111111111111111111101010), (23, 0b11111111111111111110100),
    (26, 0b11111111111111111111101011), (27, 0b111111111111111111111100110),
    (26, 0b11111111111111111111101100), (26, 0b11111111111111111111101101),
    (27, 0b111111111111111111111100111), (27, 0b111111111111111111111101000),
    (27, 0b111111111111111111111101001), (27, 0b111111111111111111111101010),
    (27, 0b111111111111111111111101011), (27, 0b111111111111111111111111111),
    (27, 0b111111111111111111111101100), (27, 0b111111111111111111111101101),
    (27, 0b111111111111111111111101110), (27, 0b111111111111111111111101111),
    (27, 0b111111111111111111111110000), (26, 0b11111111111111111111101110),
    (30, 0b111111111111111111111111111111)]

def wordBits (word : ℕ × ℕ) : List Bool := (List.range word.1).reverse.map word.2.testBit

/-- `HUFFMAN_TABLE.at(byte)`. -/
def huffmanWord (byte : ℕ) : List Bool := wordBits (huffmanTable.getD byte (0, 0))

/-- `huffman_encoder_t`: the byte being filled, and how many of its bits are free. -/
structure HuffmanEncoder where
  byte : UInt8 := 0
  count : ℕ := 8
  deriving DecidableEq

namespace HuffmanEncoder

/-- Appends a bit; the flag says that the byte is full. -/
def writeBit (e : HuffmanEncoder) (bit : Bool) : HuffmanEncoder × Bool :=
  let byte := e.byte ||| (if bit then 1 else 0)
  let count := e.count - 1
  if count = 0 then ({ byte := byte, count := 8 }, true)
  else ({ byte := byte <<< 1, count := count }, false)

/-- The body of the two nested loops of `encode`. -/
def pushBit (s : HuffmanEncoder × Bytes) (bit : Bool) : HuffmanEncoder × Bytes :=
  let r := s.1.writeBit bit
  if r.2 then ({}, s.2 ++ [r.1.byte]) else (r.1, s.2)

/-- The last byte is filled up with ones. -/
def flush (s : HuffmanEncoder × Bytes) : HuffmanEncoder × Bytes :=
  if s.1.count ≠ 8 ∧ s.1.count ≠ 0 then
    let byte := s.1.byte <<< UInt8.ofNat (s.1.count - 1)
    ({}, s.2 ++ [byte ||| (0xFF >>> UInt8.ofNat (8 - s.1.count))])
  else s

def encode (e : HuffmanEncoder) (src : Bytes) : HuffmanEncoder × Bytes :=
  flush ((src.flatMap fun b => huffmanWord b.toNat).foldl pushBit (e, []))

/-- The encoder and its output hold the bits written so far: the full bytes, and
fewer than eight bits `pending`, shifted left by one place already. -/
def Holds (s : HuffmanEncoder × Bytes) (bits : List Bool) : Prop :=
  ∃ pending : List Bool, pending.length < 8 ∧
    s.1 = { byte := UInt8.ofNat (2 * valueOfBits pending), count := 8 - pending.length } ∧
    s.2.flatMap bitsOfByte ++ pending = bits

theorem holds_fresh : Holds ({}, []) [] := ⟨[], by simp, by simp, rfl⟩

theorem or_low_bit {n : ℕ} (h : n < 128) (b : Bool) :
    UInt8.ofNat (2 * n) ||| (if b then 1 else 0) = UInt8.ofNat (2 * n + b.toNat) := by
  have key : ∀ n < 128, ∀ b : Bool,
      UInt8.ofNat (2 * n) ||| (if b then 1 else 0) = UInt8.ofNat (2 * n + b.toNat) := by
    decide
  exact key n h b

theorem shift_one {n : ℕ} (h : n < 128) : UInt8.ofNat n <<< 1 = UInt8.ofNat (2 * n) := by
  have key : ∀ n < 128, UInt8.ofNat n <<< 1 = UInt8.ofNat (2 * n) := by decide
  exact key n h

theorem valueOfBits_lt_of_length {bits : List Bool} {k : ℕ} (h : bits.length ≤ k) :
    valueOfBits bits < 2 ^ k :=
  (valueOfBits_lt bits).trans_le (Nat.pow_le_pow_right (by decide) h)

theorem pushBit_holds {s : HuffmanEncoder × Bytes} {bits : List Bool} (h : Holds s bits)
    (b : Bool) : Holds (pushBit s b) (bits ++ [b]) := by
  obtain ⟨e, out⟩ := s
  obtain ⟨pending, hlen, he, rfl⟩ := h
  dsimp only at he
  subst he
  have hval : valueOfBits pending < 128 := valueOfBits_lt_of_length (k := 7) (by omega)
  have hor := or_low_bit hval b
  rw [← valueOfBits_concat] at hor
  by_cases hfull : pending.length = 7
  · -- the byte is full: it goes out and nothing is pending
    have hbyte : bitsOfByte (byteOfBits (pending ++ [b])) = pending ++ [b] :=
      bitsOfByte_byteOfBits (by simp [hfull])
    refine ⟨[], by simp, ?_, ?_⟩
    · simp [pushBit, writeBit, hfull]
    · simp only [pushBit, writeBit, hfull, hor]
      simpa [byteOfBits, List.append_assoc] using hbyte
  · have hval' : valueOfBits (pending ++ [b]) < 128 :=
      valueOfBits_lt_of_length (k := 7) (by simp; omega)
    have hcount : 8 - pending.length - 1 ≠ 0 := by omega
    refine ⟨pending ++ [b], by simp; omega, ?_, ?_⟩
    · simp only [pushBit, writeBit, if_neg hcount, hor, shift_one hval']
      simp
      omega
    · simp [pushBit, writeBit, if_neg hcount]

theorem foldl_pushBit_holds (bits : List Bool) {s : HuffmanEncoder × Bytes} {done : List Bool}
    (h : Holds s done) : Holds (bits.foldl pushBit s) (done ++ bits) := by
  induction bits generalizing s done with
  | nil => simpa using h
  | cons b bits ih => simpa using ih (pushBit_holds h b)

theorem pad_ones {pending : List Bool} (h₀ : pending ≠ []) (h₈ : pending.length < 8) :
    UInt8.ofNat (2 * valueOfBits pending) <<< UInt8.ofNat (8 - pending.length - 1) |||
        (0xFF >>> UInt8.ofNat (8 - (8 - pending.length))) =
      byteOfBits (pending ++ List.replicate (8 - pending.length) true) := by
  match pending, h₀, h₈ with
  | [a], _, _ => revert a; decide
  | [a, b], _, _ => revert a b; decide
  | [a, b, c], _, _ => revert a b c; decide
  | [a, b, c, d], _, _ => revert a b c d; decide
  | [a, b, c, d, e], _, _ => revert a b c d e; decide
  | [a, b, c, d, e, f], _, _ => revert a b c d e f; decide
  | [a, b, c, d, e, f, g], _, _ => revert a b c d e f g; decide

/-- Flushing leaves the encoder as it was created; the bytes are the bits written
and at most seven ones. -/
theorem flush_holds {s : HuffmanEncoder × Bytes} {bits : List Bool} (h : Holds s bits) :
    (flush s).1 = {} ∧ ∃ k < 8,
      (flush s).2.flatMap bitsOfByte = bits ++ List.replicate k true := by
  obtain ⟨e, out⟩ := s
  obtain ⟨pending, hlen, he, rfl⟩ := h
  dsimp only at he
  subst he
  by_cases hp : pending = []
  · subst hp
    exact ⟨by simp [flush], 0, by simp, by simp [flush]⟩
  · have hpos : 0 < pending.length := List.length_pos_iff.mpr hp
    have hcount : 8 - pending.length ≠ 8 ∧ 8 - pending.length ≠ 0 := by omega
    have hbyte : bitsOfByte (byteOfBits (pending ++ List.replicate (8 - pending.length) true)) =
        pending ++ List.replicate (8 - pending.length) true :=
      bitsOfByte_byteOfBits (by simp; omega)
    refine ⟨by simp only [flush, if_pos hcount], 8 - pending.length, by omega, ?_⟩
    simp only [flush, if_pos hcount, pad_ones hp hlen]
    simp [hbyte, List.append_assoc]

theorem encode_fresh (src : Bytes) :
    (encode {} src).1 = {} ∧ ∃ k < 8, (encode {} src).2.flatMap bitsOfByte =
      (src.flatMap fun b => huffmanWord b.toNat) ++ List.replicate k true := by
  have h := foldl_pushBit_holds (src.flatMap fun b => huffmanWord b.toNat) holds_fresh
  rw [List.nil_append] at h
  exact flush_holds h

end HuffmanEncoder

/-- `HPackUtil::encoder.encode`. The encoder is a static object, but it is always
found as it was created (`HuffmanEncoder.encode_fresh`). -/
def huffmanEncode (src : Bytes) : Bytes := (HuffmanEncoder.encode {} src).2

/-- The tree that the constructor of `huffman_tree_t` builds. -/
def huffmanTree : CodeTree ℕ :=
  huffmanTable.zipIdx.foldl (fun t w => t.insert w.2 (wordBits w.1)) CodeTree.fresh

/-- What is appended to the output at a node with a code. No code is 257, so the
two-octet case never applies, and the end of string would give a NUL. -/
def emitCode (code : ℕ) : Bytes :=
  (if code = 257 then [UInt8.ofNat (code / 256)] else []) ++ [UInt8.ofNat code]

def huffmanDecode (src : Bytes) : Option Bytes :=
  if src.length > 2 ^ 32 - 1 then none
  else (CodeTree.decodeBits huffmanTree huffmanTree (src.flatMap bitsOfByte)).map
    (·.flatMap emitCode)

/-- The octets whose code word has another code word as a proper beginning. -/
def ambiguousOctets : List ℕ := [9, 10, 13, 22, 174]

/-- The end of string begins with the word of octet 249, so the tree never comes to it. -/
theorem legible_iff :
    ∀ n < 257, huffmanTree.Legible n (huffmanWord n) = decide (n < 256 ∧ n ∉ ambiguousOctets) := by
  decide +kernel

theorem legible_of_not_ambiguous :
    ∀ n < 256, n ∉ ambiguousOctets → huffmanTree.Legible n (huffmanWord n) := by
  intro n hn hfree
  rw [legible_iff n (by omega), decide_eq_true_eq]
  exact ⟨hn, hfree⟩

theorem decodeBits_padding :
    ∀ k < 8, CodeTree.decodeBits huffmanTree huffmanTree (List.replicate k true) = some [] := by
  decide +kernel

theorem flatMap_emitCode (s : Bytes) : (s.map UInt8.toNat).flatMap emitCode = s := by
  induction s with
  | nil => rfl
  | cons b s ih =>
    have hb : b.toNat ≠ 257 := by have := b.toNat_lt; omega
    simp [emitCode, hb, ih]

theorem huffmanDecode_encode {s : Bytes} (h : ∀ b ∈ s, b.toNat ∉ ambiguousOctets)
    (hlen : (huffmanEncode s).length ≤ 2 ^ 32 - 1) :
    huffmanDecode (huffmanEncode s) = some s := by
  obtain ⟨-, k, hk, hbits⟩ := HuffmanEncoder.encode_fresh s
  have hwords : (s.flatMap fun b => huffmanWord b.toNat) =
      (s.map UInt8.toNat).flatMap huffmanWord := by rw [List.flatMap_map]
  have hleg : ∀ n ∈ s.map UInt8.toNat, huffmanTree.Legible n (huffmanWord n) := by
    intro n hn
    obtain ⟨b, hb, rfl⟩ := List.mem_map.mp hn
    exact legible_of_not_ambiguous _ b.toNat_lt (h b hb)
  rw [huffmanDecode, if_neg (by omega), huffmanEncode, hbits, hwords,
    CodeTree.decodeBits_flatMap _ _ _ hleg, decodeBits_padding k hk]
  simp [flatMap_emitCode]

end Sese.Net.Http
