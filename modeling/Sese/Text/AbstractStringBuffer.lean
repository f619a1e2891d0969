import Sese.Foundation.Occurrences
import Sese.Text.SStringView

/-!
# String buffers

`AbstractStringBuffer`: a block of `cap` octets, of which the first `len` are the text. The loops
of the source count with `int` or with `size_t` as it does, and an access behind the block is a
fault. Sums of the sizes of what is in memory at the same time have room in a `size_t`; what
`new` leaves in a block is `junk`.
-/
namespace Sese.Text

open Foundation

/-- `isSpace`: the octets of `SPACE_CHARS`. -/
def isSpace (ch : UInt8) : Bool := [32, 10, 13, 9, 11, 8].contains ch

/-- The condition `CheckRange(index, max)`. -/
def checkRange (index : ℤ) (max : ℕ) : Bool := (index % 2 ^ 32).toNat < max

structure StringBuffer where
  buffer : Bytes
  len : ℕ
  deriving DecidableEq

namespace StringBuffer

def cap (b : StringBuffer) : ℕ := b.buffer.length

def text (b : StringBuffer) : Bytes := b.buffer.take b.len

def create (cap : ℕ) : StringBuffer := ⟨List.replicate cap 0, 0⟩

/-- The constructor with a C string, which has these octets in front of its NUL. -/
def ofCString (str : Bytes) : StringBuffer :=
  ⟨str ++ List.replicate ((str.length / 1024 + 1) * 1024 - str.length) 0, str.length⟩

variable (junk : ℕ → UInt8)

def expansion (b : StringBuffer) (newSize : ℕ) : Except Fault StringBuffer := do
  let data ← load b.buffer 0 b.len
  let block ← store (SStringView.malloc junk newSize) 0 data
  return { b with buffer := block }

/-- The capacity is made large enough for `l` more octets. -/
def reserve (b : StringBuffer) (l : ℕ) : Except Fault StringBuffer :=
  if l > toSize ((b.cap : ℤ) - b.len) then b.expansion junk (((l + b.len) / 1024 + 1) * 1024)
  else .ok b

/-- `append` of `l` octets from `data` on. -/
def append (b : StringBuffer) (data : Bytes) (l : ℕ) : Except Fault StringBuffer := do
  let b ← b.reserve junk l
  let src ← load data 0 l
  let block ← store b.buffer b.len src
  return ⟨block, b.len + l⟩

/-- `append` of a `StringView` or a `String`. -/
def appendString (b : StringBuffer) (view : SStringView) : Except Fault StringBuffer := do
  let l ← view.len
  b.append junk view.data l

def clear (b : StringBuffer) : StringBuffer := { b with len := 0 }

/-- The loop of `reverse`. -/
def reverseLoop (len : ℕ) : ℕ → ℕ → Bytes → Except Fault Bytes
  | 0, _, block => .ok block
  | togo + 1, j, block => do
    let temp ← readAt block j
    let other ← readAt block (len - 1 - j : ℕ)
    let block ← store block j [other]
    let block ← store block (len - 1 - j) [temp]
    let j ← checkInt (j + 1)
    reverseLoop len togo j.toNat block

def reverse (b : StringBuffer) : Except Fault StringBuffer := do
  let block ← reverseLoop b.len (b.len / 2) 0 b.buffer
  return { b with buffer := block }

/-- The octets are moved by `w` places to the front, from `i` on. -/
def moveLoop (w : ℕ) : ℕ → ℕ → Bytes → Except Fault Bytes
  | 0, _, block => .ok block
  | togo + 1, i, block => do
    let ch ← readAt block (i + w : ℕ)
    let block ← store block i [ch]
    let i ← checkInt (i + 1)
    moveLoop w togo i.toNat block

def delCharAt (b : StringBuffer) (index : ℤ) : Except Fault (StringBuffer × Bool) :=
  if ¬ checkRange index b.len then .ok (b, false)
  else do
    let block ←
      if toSize index < b.len - 1 then moveLoop 1 (b.len - 1 - index.toNat) index.toNat b.buffer
      else .ok b.buffer
    let block ← store block (b.len - 1) [0]
    return (⟨block, b.len - 1⟩, true)

def del (b : StringBuffer) (start l : ℤ) : Except Fault (StringBuffer × Bool) :=
  if 0 > start then .ok (b, false)
  else do
    let stop ← checkInt (start + l)
    if b.len < toSize stop then return (b, false)
    else
      let src ← load b.buffer stop.toNat (b.len - stop).toNat
      let block ← store b.buffer start.toNat src
      let len := (b.len - l).toNat
      let block ← store block len [0]
      return (⟨block, len⟩, true)

/-- `insertAt` of `l` octets from `data` on. -/
def insertAt (b : StringBuffer) (index : ℤ) (data : Bytes) (l : ℕ) :
    Except Fault (StringBuffer × Bool) :=
  if b.cap ≤ toSize index then .ok (b, false)
  else if index < 0 then .error .overread
  else do
    let b ← b.reserve junk l
    let moved ← load b.buffer index.toNat b.len
    let block ← store b.buffer (index.toNat + l) moved
    let src ← load data 0 l
    let block ← store block index.toNat src
    return (⟨block, b.len + l⟩, true)

/-- `insertAt` of a `StringView` or a `String`. -/
def insertStringAt (b : StringBuffer) (index : ℤ) (view : SStringView) :
    Except Fault (StringBuffer × Bool) := do
  let l ← view.len
  b.insertAt junk index view.data l

/-- The first loop of `trim`: the white space at the end of the first `n` octets. -/
def trimEndLoop : ℕ → ℕ → Bytes → Except Fault (Bytes × ℕ)
  | 0, w, block => .ok (block, w)
  | n + 1, w, block => do
    let ch ← readAt block n
    if isSpace ch then do
      let block ← store block n [0]
      trimEndLoop n (w + 1) block
    else return (block, w)

/-- The second one: the place of the first octet that is no white space, 0 if there is none. -/
def trimStartLoop (block : Bytes) : ℕ → ℕ → Except Fault ℕ
  | 0, _ => .ok 0
  | togo + 1, i => do
    let ch ← readAt block i
    if ¬ isSpace ch then return i
    else
      let i ← checkInt (i + 1)
      trimStartLoop block togo i.toNat

def trim (b : StringBuffer) : Except Fault StringBuffer := do
  let (block, w) ← trimEndLoop b.len 0 b.buffer
  let len := b.len - w
  let w ← trimStartLoop block len 0
  let block ← moveLoop w (len - w) 0 block
  let block ← memset block (len - w) 0 (w + 1)
  return ⟨block, len - w⟩

end StringBuffer

/-- `std::string_view::find`, none for `npos`. -/
def find (text sub : Bytes) (pos : ℕ) : Option ℕ :=
  if pos ≤ text.length then (first sub (text.drop pos)).map (pos + ·) else none

/-- The loop of both functions `split`, with what comes out of `pos1`. A pass finds a separator, so
that as many passes as the text has octets, and one, are enough. -/
def partsLoop (text sub : Bytes) : ℕ → ℕ → List Bytes → Except Fault (List Bytes × ℕ)
  | 0, _, _ => .error .endlessLoop
  | fuel + 1, pos1, v =>
    match find text sub pos1 with
    | none => .ok (v, pos1)
    | some pos2 => do
      let part ← load text pos1 (pos2 - pos1)
      partsLoop text sub fuel (pos2 + sub.length) (v ++ [part])

/-- A C string, of which no more than these octets may be read. -/
def readCString (s : Bytes) : Except Fault Bytes :=
  if (0 : UInt8) ∈ s then .ok (cstr s) else .error .overread

/-- The static `split`: the last part is read as a C string. -/
def splitView (text sub : Bytes) : Except Fault (List Bytes) := do
  let (v, pos1) ← partsLoop text sub (text.length + 1) 0 []
  if pos1 ≠ text.length then do
    let part ← readCString (text.drop pos1)
    return v ++ [part]
  else return v

/-- The member `split`. -/
def StringBuffer.split (b : StringBuffer) (str : Bytes) : Except Fault (List Bytes) := do
  let s ← load b.buffer 0 b.len
  let (v, pos1) ← partsLoop s str (s.length + 1) 0 []
  if pos1 ≠ s.length then do
    let part ← load b.buffer pos1 (b.len - pos1)
    return v ++ [part]
  else return v

end Sese.Text
