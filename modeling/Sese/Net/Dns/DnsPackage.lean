import Sese.Foundation.Outcome
import Sese.Util.Bytes

/-!
# DNS packages

`DnsPackage` with its decoder and its encoder. The decoder works on the memory that
starts with the datagram, through an access that may refuse an index: `memory` has
whatever follows the datagram, `within` refuses every index that is not of the datagram.
-/
namespace Sese

open Foundation

abbrev Octets := ℕ → Except Fault UInt8

def memory (m : ℕ → UInt8) : Octets := fun i => .ok (m i)

/-- The first `length` octets of the memory. -/
def within (m : ℕ → UInt8) (length : ℕ) : Octets := fun i =>
  if i < length then .ok (m i) else .error .overread

/-- Read `n` octets from `pos` on. -/
def readBytes (octet : Octets) : ℕ → ℕ → Except Fault Bytes
  | _, 0 => .ok []
  | pos, n + 1 => do
    let b ← octet pos
    let rest ← readBytes octet (pos + 1) n
    .ok (b :: rest)

def read16 (octet : Octets) (pos : ℕ) : Except Fault UInt16 := do
  .ok (.ofNat (fromBigEndian (← readBytes octet pos 2)))

def read32 (octet : Octets) (pos : ℕ) : Except Fault UInt32 := do
  .ok (.ofNat (fromBigEndian (← readBytes octet pos 4)))

namespace DnsPackage

def typeA : UInt16 := 1

def typeAAAA : UInt16 := 28

def classIn : UInt16 := 1

structure Question where
  name : Bytes
  type : UInt16
  class_ : UInt16
  deriving DecidableEq, Repr

/-- An answer, an authority or an additional record. -/
structure Answer where
  name : Bytes
  type : UInt16
  class_ : UInt16
  ttl : UInt32
  data_length : UInt16
  data : Bytes
  deriving DecidableEq, Repr

end DnsPackage

structure DnsPackage where
  id : UInt16
  flags : UInt16
  questions : List DnsPackage.Question
  answers : List DnsPackage.Answer
  authorities : List DnsPackage.Answer
  additionals : List DnsPackage.Answer
  deriving DecidableEq, Repr

namespace DnsPackage

/-- The two upper bits say that the octet is the first of a pointer. -/
def isPointer (b : UInt8) : Bool := b &&& 0xC0 = 0xC0

def pointerTarget (b b' : UInt8) : ℕ := fromBigEndian [b, b'] &&& 0x3FFF

def dotted (first : Bool) (text : Bytes) : Bytes := if first then text else text ++ [46]

/-- The loop of `decodeWords` and its recursion. The index of the loop has 16 bits. The empty
text is what is returned when the name is given up; `offset` is not changed then. -/
def wordsLoop (octet : Octets) (length : ℕ) :
    ℕ → ℕ → ℕ → Bool → Bytes → Except Fault (Bytes × ℕ)
  | 0, _, _, _, _ => .error .endlessLoop
  | fuel + 1, offset, pos, first, text => do
    let b ← octet (offset + pos)
    if b = 0 then .ok (text, offset + pos)
    else if isPointer b then
      let b' ← octet (offset + pos + 1)
      if length < pointerTarget b b' then .ok ([], offset)
      else
        let (sub, _) ← wordsLoop octet length fuel (pointerTarget b b') 0 true []
        if sub = [] then .ok ([], offset)
        else .ok (dotted first text ++ sub, offset + (pos + 2) % 65536)
    else if length < offset + b.toNat + 1 then .ok ([], offset)
    else
      let label ← readBytes octet (offset + pos + 1) b.toNat
      wordsLoop octet length fuel offset ((pos + b.toNat + 1) % 65536) false
        (dotted first text ++ label)

/-- No name visits more places than there are: an offset below `2^14`, or that of the name
itself, and an index of 16 bits. -/
def nameFuel : ℕ := 16385 * 65536

/-- `decodeWords`: the text and the new offset. -/
def decodeWords (octet : Octets) (length offset : ℕ) : Except Fault (Bytes × ℕ) :=
  wordsLoop octet length nameFuel offset 0 true []

/-- The loop over the questions in `decode`; nothing is returned when a name is empty. -/
def decodeQuestions (octet : Octets) (length : ℕ) :
    ℕ → ℕ → Except Fault (Option (List Question × ℕ))
  | 0, pos => .ok (some ([], pos))
  | n + 1, pos => do
    let (name, pos) ← decodeWords octet length pos
    if name = [] then .ok none
    else
      let type ← read16 octet (pos + 1)
      let class_ ← read16 octet (pos + 3)
      let rest ← decodeQuestions octet length n (pos + 5)
      .ok (rest.map fun r => ({ name, type, class_ } :: r.1, r.2))

def decodeAnswers (octet : Octets) (length : ℕ) :
    ℕ → ℕ → Except Fault (Option (List Answer × ℕ))
  | 0, pos => .ok (some ([], pos))
  | n + 1, pos => do
    let (name, pos) ← decodeWords octet length pos
    if name = [] then .ok none
    else if length < pos + 10 then .ok none
    else
      let type ← read16 octet pos
      let class_ ← read16 octet (pos + 2)
      let ttl ← read32 octet (pos + 4)
      let data_length ← read16 octet (pos + 8)
      if length < pos + 10 + data_length.toNat then .ok none
      else
        let data ← readBytes octet (pos + 10) data_length.toNat
        let rest ← decodeAnswers octet length n (pos + 10 + data_length.toNat)
        .ok (rest.map fun r => ({ name, type, class_, ttl, data_length, data } :: r.1, r.2))

/-- Go on with what was decoded, unless it was nothing. -/
def andThen {α β : Type} (x : Except Fault (Option α)) (f : α → Except Fault (Option β)) :
    Except Fault (Option β) := do
  match ← x with
  | none => .ok none
  | some a => f a

def decode (octet : Octets) (length : ℕ) : Except Fault (Option DnsPackage) :=
  if length < 12 then .ok none
  else do
    let id ← read16 octet 0
    let flags ← read16 octet 2
    let qdcount ← read16 octet 4
    let ancount ← read16 octet 6
    let nscount ← read16 octet 8
    let arcount ← read16 octet 10
    andThen (decodeQuestions octet length qdcount.toNat 12) fun (questions, pos) =>
    andThen (decodeAnswers octet length ancount.toNat pos) fun (answers, pos) =>
    andThen (decodeAnswers octet length nscount.toNat pos) fun (authorities, pos) =>
    andThen (decodeAnswers octet length arcount.toNat pos) fun (additionals, _) =>
    .ok (some { id, flags, questions, answers, authorities, additionals })

end DnsPackage

end Sese
