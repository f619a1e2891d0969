import Sese.Text.Conversions
import Sese.Util.Region

/-!
# The operations of a UTF-8 string

`len`, `at`, `substring` and `reverse`. Each of them walks over the octets with its own loop; a
`SString` is what can be read from its `_data` on, with its `_size`, and one without data is
empty.
-/
namespace Sese.Text

open Foundation

namespace SStringView

/-- The loop of `len`. A pass that goes on moves `i`, so that one pass more than there are octets
is enough. -/
def lenLoop (str : SStringView) : ℕ → ℕ → ℕ → Except Fault ℕ
  | 0, _, _ => .error .endlessLoop
  | fuel + 1, i, len =>
    if i < str.size then do
      let ch ← readAt str.data i
      if ch = 0 then return len
      else
        let n := getSizeFromUTF8Char ch
        if n = -1 then return len
        else if i + n > str.size then return len
        else lenLoop str fuel (i + n.toNat) (len + 1)
    else return len

def len (str : SStringView) : Except Fault ℕ := str.lenLoop (str.size + 1) 0 0

/-- The loop of `SStringView::at`; `n` counts the characters. -/
def atLoop (str : SStringView) (index : ℕ) : ℕ → ℕ → ℕ → Except Fault ℕ
  | 0, _, _ => .error .endlessLoop
  | fuel + 1, i, n =>
    if i < str.size then do
      let ch ← readAt str.data i
      if ch = 0 then return 0
      else
        let c := getSizeFromUTF8Char ch
        if c = -1 then return 0
        else if i + c > str.size then return 0
        else if index = n + 1 then getUnicodeCharFromUTF8Char c (str.data.drop i)
        else atLoop str index fuel (i + c.toNat) (n + 1)
    else return 0

/-- `at`: the character with this index, the null character if there is none. -/
def charAt (str : SStringView) (index : ℕ) : Except Fault ℕ :=
  str.atLoop ((index + 1) % sizeBound) (str.size + 1) 0 0

/-- The loop of `::at` at `p`: `togo` more characters are passed, and `i` is the number of those
that were. The result is where the character starts, none behind the end of the string. -/
def pointerLoop (data : Bytes) : ℕ → ℤ → ℤ → Except Fault (Option ℤ)
  | togo, p, i => do
    let ch ← readAt data p
    if ch = 0 then return none
    else
      let i ← checkInt (i + 1)
      match togo with
      | 0 => return some p
      | togo + 1 => pointerLoop data togo (p + getSizeFromUTF8Char ch) i

/-- `::at`. -/
def pointerAt (data : Bytes) (begin : ℕ) : Except Fault (Option ℤ) := pointerLoop data begin 0 (-1)

/-- A block with what `malloc` leaves in it. -/
def malloc (junk : ℕ → UInt8) (n : ℕ) : Bytes := (List.range n).map junk

theorem length_malloc (junk : ℕ → UInt8) (n : ℕ) : (malloc junk n).length = n := by
  rw [malloc, List.length_map, List.length_range]

/-- The end of both `substring`: the octets are copied into a block, and a NUL behind them. -/
def copyOut (junk : ℕ → UInt8) (data : Bytes) (start : ℤ) (size : ℕ) : Except Fault SStringView := do
  let capacity := (size / 16 + 1) * 16 % sizeBound
  let src ← if 0 ≤ start then load data start.toNat size else .error .overread
  let block ← store (malloc junk capacity) 0 src
  let block ← store block size [0]
  return ⟨block, size⟩

/-- A default `SString`. -/
def null : SStringView := ⟨[], 0⟩

/-- `substring` from a character to the end. -/
def substringFrom (junk : ℕ → UInt8) (str : SStringView) (begin : ℕ) : Except Fault SStringView := do
  match ← pointerAt str.data begin with
  | none => return null
  | some p => copyOut junk str.data p (toSize (str.size - p))

/-- The loop of `substring` that adds up the sizes of at most `togo` more characters. -/
def sizeLoop (data : Bytes) : ℕ → ℤ → ℤ → ℤ → Except Fault ℤ
  | togo, p, count, newSize => do
    let ch ← readAt data p
    if ch = 0 then return newSize
    else
      match togo with
      | 0 => return newSize
      | togo + 1 =>
        let n := getSizeFromUTF8Char ch
        let newSize ← checkInt (newSize + n)
        let count ← checkInt (count + 1)
        sizeLoop data togo (p + n) count newSize

/-- `substring` of at most `len` characters. -/
def substring (junk : ℕ → UInt8) (str : SStringView) (begin len : ℕ) : Except Fault SStringView := do
  match ← pointerAt str.data begin with
  | none => return null
  | some start =>
    let newSize ← sizeLoop str.data len start 0 0
    copyOut junk str.data start (toSize newSize)

/-- The loop of `reverse`: the character at `i` is copied in front of `index`. A pass that goes on
moves `i` forward. -/
def reverseLoop (str : SStringView) : ℕ → ℤ → ℤ → Bytes → Except Fault Bytes
  | 0, _, _, _ => .error .endlessLoop
  | fuel + 1, i, index, block =>
    if toSize i < str.size then do
      let ch ← readAt str.data i
      let n := getSizeFromUTF8Char ch
      let index := index - n
      let src ← if 0 ≤ n then load str.data i.toNat n.toNat else .error .overread
      let block ← if 0 ≤ index then store block index.toNat src else .error .overflow
      let i ← checkInt (i + n)
      reverseLoop str fuel i index block
    else return block

def reverse (junk : ℕ → UInt8) (str : SStringView) : Except Fault SStringView := do
  let capacity := (str.size / 16 + 1) * 16 % sizeBound
  let block ← store (malloc junk capacity) str.size [0]
  let block ← reverseLoop str (str.size + 1) 0 str.size block
  return ⟨block, str.size⟩

end SStringView
end Sese.Text
