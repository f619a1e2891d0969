import Mathlib.Data.List.Sort
import Sese.Net.Dns.DnsPackage

/-!
# The compression index of a package

`Index` has an entry for every suffix of a name of the package, with a number of 16 bits
and the position where the suffix was written first (0 before that), and for every name
the numbers of its suffixes.
-/
namespace Sese

open Foundation

namespace DnsPackage

structure CompressIndex where
  index : UInt16
  name : Bytes
  pos : UInt16
  deriving DecidableEq, Repr

/-- The entries are kept in the order in which they were made, not in that of the
`std::map`; only their sorting by the length of the name depends on it, and only where two
lengths are equal. -/
structure Index where
  compress_index : List CompressIndex
  compress_mapping : List (Bytes × List UInt16)
  deriving DecidableEq, Repr

/-- `'.'`. -/
def dot : Bytes := [46]

def labelBytes (words : List Bytes) : Bytes :=
  words.flatMap fun word => .ofNat word.length :: word

/-- `encodeWords` without an index. -/
def literalWords (fullname : Bytes) : Bytes := labelBytes (split fullname dot) ++ [0]

namespace Index

def empty : Index where
  compress_index := []
  compress_mapping := []

/-- The constructor between two suffixes: what it has made so far, and its counter. -/
structure Building extends Index where
  count : UInt16

/-- `iterator0->second.emplace(number)`. -/
def Building.emplace (b : Building) (item : Bytes) (number : UInt16) : Building :=
  { b with compress_mapping := b.compress_mapping.map fun e =>
      if e.1 = item then (e.1, e.2.insert number) else e }

/-- A suffix of the name `item`; `pos` counts those that were new. -/
def Building.addSuffix (b : Building) (item name : Bytes) (pos : ℕ) : Building × ℕ :=
  match b.compress_index.find? fun e => e.name = name with
  | none =>
    let number := b.count - .ofNat pos
    let entry : CompressIndex := { index := number, name, pos := 0 }
    let b := { b with compress_index := b.compress_index ++ [entry] }
    (b.emplace item number, pos + 1)
  | some e => (b.emplace item e.index, pos)

/-- The suffixes of `item` from the last label on; `name` is the suffix so far. -/
def Building.addSuffixes (item : Bytes) :
    List Bytes → Bytes → Bool → ℕ → Building → Building
  | [], _, _, _, b => b
  | word :: words, name, first, pos, b =>
    let name := word ++ (if first then name else dot ++ name)
    let (b, pos) := b.addSuffix item name pos
    addSuffixes item words name false pos b

/-- One round of `BUILD_INDEX`. The loop over the words has a counter of 16 bits. -/
def Building.addName (b : Building) (item : Bytes) : Building :=
  let names := split item dot
  let b := { b with count := b.count + .ofNat names.length }
  let b := if (b.compress_mapping.lookup item).isSome then b
    else { b with compress_mapping := b.compress_mapping ++ [(item, [])] }
  Building.addSuffixes item (names.take (names.length % 65536)).reverse [] true 0 b

/-- The constructor, for the names of all sections in their order. -/
def build (names : List Bytes) : Index :=
  (names.foldl Building.addName { empty with count := 0 }).toIndex

/-- The entries with these numbers, the longest name first. -/
def getSortedIndexes (index : Index) (numbers : List UInt16) : List CompressIndex :=
  (index.compress_index.filter fun e => e.index ∈ numbers).insertionSort fun a b =>
    b.name.length ≤ a.name.length

/-- `clearPos` clears copies of the entries. -/
def clearPos (index : Index) : Index := index

def setPos (index : Index) (name : Bytes) (pos : UInt16) : Index :=
  { index with compress_index := index.compress_index.map fun e =>
      if e.name = name then { e with pos } else e }

/-- The loop of `updatePos` behind its first round, in which `fullname` is set. -/
def updatePosLoop (fullname : Bytes) (offset : UInt16) : List CompressIndex → Index → Index
  | [], index => index
  | item :: items, index =>
    if item.pos ≠ 0 then index
    else updatePosLoop fullname offset items
      (index.setPos item.name (offset + .ofNat (fullname.length - item.name.length)))

def updatePos (index : Index) (items : List CompressIndex) (offset : UInt16) : Index :=
  match items with
  | [] => index
  | item :: _ => updatePosLoop item.name offset items index

def createPointer (pos : UInt16) : UInt16 := 0xC000 ||| (pos &&& 0x3FFF)

/-- The loop of `encodeWords`; a pointer ends it. -/
def wordsBytes : List CompressIndex → List Bytes → Except Fault Bytes
  | [], _ => .ok [0]
  | item :: items, words =>
    match words with
    | [] => .error .overread
    | word :: words =>
      if item.pos = 0 then do
        let rest ← wordsBytes items words
        .ok (.ofNat word.length :: (word ++ rest))
      else .ok (toBigEndian16 (createPointer item.pos).toNat)

def encodeWords (index : Index) (fullname : Bytes) (numbers : List UInt16) (base_offset : UInt16) :
    Except Fault (Bytes × Index) := do
  let cached_items := index.getSortedIndexes numbers
  let text ← wordsBytes cached_items (split fullname dot)
  .ok (text, index.updatePos cached_items base_offset)

end Index

/-- The octets of the name of an entry, compressed if the index has the name. -/
def nameBytes (index : Index) (name : Bytes) (offset : ℕ) : Except Fault (Bytes × Index) :=
  match index.compress_mapping.lookup name with
  | some numbers => index.encodeWords name numbers (.ofNat offset)
  | none => .ok (literalWords name, index)

end DnsPackage

end Sese
