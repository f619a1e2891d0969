import Sese.Foundation.Overwrite
import Sese.Foundation.Rounds
import Sese.Util.Bytes

/-!
# UTF-8 strings

`SStringView::toChars`, the iterators of a string and `SString::fromSChars`, over the functions
of `sstr` that tell how long a character is, read one and write one. A code point is the number
that `SChar` has in it; what can be read of a string is a list of octets that ends with a NUL.
-/
namespace Sese.Text

open Foundation

/-- The type `size_t` has the values below this one. -/
def sizeBound : ℕ := 2 ^ 64

/-- A `char` is added to a `size_t`. -/
def addChar (size : ℕ) (n : ℤ) : ℕ := ((size + n) % sizeBound).toNat

/-- The length of a character, by its first octet. -/
def getSizeFromUTF8Char (ch : UInt8) : ℤ :=
  if ch &&& 0b10000000 = 0b00000000 then 1
  else if ch &&& 0b11100000 = 0b11000000 then 2
  else if ch &&& 0b11110000 = 0b11100000 then 3
  else if ch &&& 0b11111000 = 0b11110000 then 4
  else -1

/-- The length of a character, by its code point. -/
def getUTF8SizeFromUnicodeChar (ch : ℕ) : ℤ :=
  if ch ≤ 0x7f then 1
  else if ch > 0x7f ∧ ch ≤ 0x7ff then 2
  else if ch > 0x7ff ∧ ch ≤ 0xffff then 3
  else if ch > 0xffff ∧ ch ≤ 0x7ffff then 4
  else -1

def getUnicodeCharFromUTF8Char (size : ℤ) (ch : Bytes) : Except Fault ℕ :=
  if size = 1 then
    match ch with
    | b₀ :: _ => .ok (b₀.toNat &&& 0b01111111)
    | _ => .error .overread
  else if size = 2 then
    match ch with
    | b₀ :: b₁ :: _ => .ok ((b₀.toNat &&& 0b00011111) <<< 6 ||| (b₁.toNat &&& 0b00111111))
    | _ => .error .overread
  else if size = 3 then
    match ch with
    | b₀ :: b₁ :: b₂ :: _ =>
      .ok ((b₀.toNat &&& 0b00001111) <<< 12 ||| (b₁.toNat &&& 0b00111111) <<< 6 |||
        (b₂.toNat &&& 0b00111111))
    | _ => .error .overread
  else if size = 4 then
    match ch with
    | b₀ :: b₁ :: b₂ :: b₃ :: _ =>
      .ok ((b₀.toNat &&& 0b00000111) <<< 18 ||| (b₁.toNat &&& 0b00111111) <<< 12 |||
        (b₂.toNat &&& 0b00111111) <<< 6 ||| (b₃.toNat &&& 0b00111111))
    | _ => .error .overread
  else .ok 0

def getUnicodeFromUTF8Char (u8char : Bytes) : Except Fault ℕ :=
  match u8char with
  | [] => .error .overread
  | ch :: _ => getUnicodeCharFromUTF8Char (getSizeFromUTF8Char ch) u8char

/-- The octets that `insertUnicodeChar2UTF8String` writes, none if it returns `false`. -/
def insertUnicodeChar2UTF8String (code : ℕ) (n : ℤ) : Bytes :=
  if n = 1 then [UInt8.ofNat (0b01111111 &&& code)]
  else if n = 2 then
    [UInt8.ofNat (0b11000000 ||| (0b0000011111000000 &&& code) >>> 6),
      UInt8.ofNat (0b10000000 ||| (0b0000000000111111 &&& code))]
  else if n = 3 then
    [UInt8.ofNat (0b11100000 ||| (0b1111000000000000 &&& code) >>> 12),
      UInt8.ofNat (0b10000000 ||| (0b0000111111000000 &&& code) >>> 6),
      UInt8.ofNat (0b10000000 ||| (0b0000000000111111 &&& code))]
  else if n = 4 then
    [UInt8.ofNat (0b11110000 ||| (0b000111000000000000000000 &&& code) >>> 18),
      UInt8.ofNat (0b10000000 ||| (0b000000111111000000000000 &&& code) >>> 12),
      UInt8.ofNat (0b10000000 ||| (0b000000000000111111000000 &&& code) >>> 6),
      UInt8.ofNat (0b10000000 ||| (0b000000000000000000111111 &&& code))]
  else []

/-- `data` is what can be read from `_data` on, `size` is `_size`. -/
structure SStringView where
  data : Bytes
  size : ℕ
  deriving DecidableEq

namespace SStringView

def ofCString (s : Bytes) : SStringView := ⟨s ++ [0], (cstr (s ++ [0])).length⟩

def text (str : SStringView) : Bytes := str.data.take str.size

/-- The loop of `toChars`. A pass that goes on moves `i`, so that `_size` passes are enough. -/
def toCharsLoop (str : SStringView) : ℕ → ℕ → Except Fault (List ℕ)
  | 0, _ => .ok []
  | fuel + 1, i =>
    if i < str.size then
      match str.data.drop i with
      | [] => .error .overread
      | ch :: rest =>
        if ch = 0 then .ok []
        else
          let n := getSizeFromUTF8Char ch
          if n = -1 then .ok []
          else if i + n > str.size then .ok []
          else do
            let c ← getUnicodeCharFromUTF8Char n (ch :: rest)
            let chars ← toCharsLoop str fuel (i + n.toNat)
            return c :: chars
    else .ok []

def toChars (str : SStringView) : Except Fault (List ℕ) := str.toCharsLoop str.size 0

structure Iterator where
  ref : Bytes
  pos : ℕ
  ch : ℕ

/-- The constructor takes the character at the beginning of the string, whatever `pos` is. -/
def Iterator.make (ref : Bytes) (pos : ℕ) : Except Fault Iterator := do
  let ch ← getUnicodeFromUTF8Char ref
  return ⟨ref, pos, ch⟩

/-- `operator++`. -/
def Iterator.next (it : Iterator) : Except Fault Iterator :=
  if it.ch = 0 then .ok it
  else do
    let pos := addChar it.pos (getUTF8SizeFromUnicodeChar it.ch)
    let ch ← getUnicodeFromUTF8Char (it.ref.drop pos)
    return { it with pos := pos, ch := ch }

def begin (str : SStringView) : Except Fault Iterator := Iterator.make str.data 0

def finish (str : SStringView) : Except Fault Iterator := Iterator.make str.data str.size

/-- One round of a loop from `begin()` to `end()`; what was seen are the code points, each with
the distance to the next position. -/
def round (str : SStringView) (s : Iterator × List (ℕ × ℕ)) :
    Except Fault ((Iterator × List (ℕ × ℕ)) ⊕ List (ℕ × ℕ)) := do
  let last ← str.finish
  if s.1.pos = last.pos then return .inr s.2
  else do
    let it ← s.1.next
    return .inl (it, s.2 ++ [(s.1.ch, it.pos - s.1.pos)])

end SStringView

namespace SString

/-- The bounds of `int`, the type of `index`. -/
def addIndex (index n : ℤ) : Except Fault ℤ :=
  if -2 ^ 31 ≤ index + n ∧ index + n < 2 ^ 31 then .ok (index + n) else .error .intOverflow

/-- The octets of a character are written at `index` of the block. -/
def write (block : Bytes) (index : ℤ) (src : Bytes) : Except Fault Bytes :=
  if src = [] then .ok block
  else if 0 ≤ index ∧ index + src.length ≤ block.length then .ok (overwrite block index.toNat src)
  else .error .overflow

/-- The loop that writes the characters into the block. -/
def fill (block : Bytes) : ℤ → List ℕ → Except Fault Bytes
  | _, [] => .ok block
  | index, ch :: chars => do
    let n := getUTF8SizeFromUnicodeChar ch
    let block ← write block index (insertUnicodeChar2UTF8String ch n)
    let index ← addIndex index n
    fill block index chars

/-- `fromSChars`. The block that it gets is filled with `junk`. -/
def fromSChars (junk : ℕ → UInt8) (chars : List ℕ) : Except Fault SStringView := do
  let size := chars.foldl (fun size ch => addChar size (getUTF8SizeFromUnicodeChar ch)) 0
  let capacity := (size / 16 + 1) * 16 % sizeBound
  let block ← fill ((List.range capacity).map junk) 0 chars
  if size < capacity then return ⟨overwrite block size [0], size⟩
  else .error .overflow

end SString
end Sese.Text
