import Sese.Net.Dns.PackageIndex
import Sese.Util.Region

/-!
# Encoding a package

`encode` writes into a buffer as far as the capacity goes. A capacity of 0 means that only
the size is computed, for the whole package and also for a section. `wire` are the octets
that the package has with an index, wherever they are written.
-/
namespace Sese

open Foundation

namespace DnsPackage

def buildIndex (pkg : DnsPackage) : Index :=
  Index.build (pkg.questions.map (·.name) ++ pkg.answers.map (·.name) ++
    pkg.authorities.map (·.name) ++ pkg.additionals.map (·.name))

/-- What has been encoded of a section: how many octets, and the buffer. -/
structure Sink where
  length : ℕ
  buffer : Bytes

/-- Append `size` octets to a section that starts at `base` and has room for `max` octets;
with a `max` of 0 they are only counted. -/
def emit (base max size : ℕ) (src : Except Fault Bytes) (out : Sink) :
    Except Fault (Bool × Sink) :=
  if max = 0 then .ok (true, { out with length := out.length + size })
  else if max - out.length < size then .ok (false, out)
  else do
    let octets ← src
    let buffer ← store out.buffer (base + out.length) octets
    .ok (true, { length := out.length + size, buffer })

/-- The loop of `encodeQuestions` and of `encodeAnswers`: of every item its name and then its
fields, which are `size` many octets. -/
def encodeEntries {α : Type} (name : α → Bytes) (size : α → ℕ) (fields : α → Except Fault Bytes)
    (base max : ℕ) : List α → Sink → Index → Except Fault (Bool × Sink × Index)
  | [], out, index => .ok (true, out, index)
  | item :: items, out, index => do
    let (octets, index) ← nameBytes index (name item) (out.length + base)
    let (room, out) ← emit base max octets.length (.ok octets) out
    if room then
      let (room, out) ← emit base max (size item) (fields item) out
      if room then encodeEntries name size fields base max items out index
      else .ok (false, out, index)
    else .ok (false, out, index)

def Question.fields (q : Question) : Except Fault Bytes :=
  .ok (toBigEndian16 q.type.toNat ++ toBigEndian16 q.class_.toNat)

def Answer.head (a : Answer) : Bytes :=
  toBigEndian16 a.type.toNat ++ (toBigEndian16 a.class_.toNat ++
    (toBigEndian32 a.ttl.toNat ++ toBigEndian16 a.data_length.toNat))

def Answer.fields (a : Answer) : Except Fault Bytes := do
  let data ← load a.data 0 a.data_length.toNat
  .ok (a.head ++ data)

/-- A section behind `length` octets of the package, with room for `max` octets. -/
abbrev Section := (base max : ℕ) → Bytes → Index → Except Fault (Bool × Sink × Index)

def encodeQuestions (questions : List Question) : Section := fun base max buffer index =>
  encodeEntries Question.name (fun _ => 4) Question.fields base max questions ⟨0, buffer⟩ index

def encodeAnswers (answers : List Answer) : Section := fun base max buffer index =>
  encodeEntries Answer.name (fun a => 10 + a.data_length.toNat) Answer.fields base max answers
    ⟨0, buffer⟩ index

/-- The subtraction of two `size_t`. -/
def sizeSub (a b : ℕ) : ℕ := (a + 2 ^ 64 - b) % 2 ^ 64

/-- What `encode` does with sections that it adds to the length, one after the other. -/
def encodeSections (max : ℕ) :
    List Section → ℕ → Bytes → Index → Except Fault (Bool × ℕ × Bytes × Index)
  | [], length, buffer, index => .ok (true, length, buffer, index)
  | encodeSection :: sections, length, buffer, index => do
    let sublength := if max = 0 then max else sizeSub max length
    let (encoded, out, index) ← encodeSection length sublength buffer index
    if encoded then encodeSections max sections (length + out.length) out.buffer index
    else .ok (false, length, out.buffer, index)

def header (pkg : DnsPackage) : Bytes :=
  toBigEndian16 pkg.id.toNat ++ (toBigEndian16 pkg.flags.toNat ++
    (toBigEndian16 pkg.questions.length ++ (toBigEndian16 pkg.answers.length ++
      (toBigEndian16 pkg.authorities.length ++ toBigEndian16 pkg.additionals.length))))

def sections (pkg : DnsPackage) : List Section :=
  [encodeQuestions pkg.questions, encodeAnswers pkg.answers, encodeAnswers pkg.authorities]

/-- `encode` behind the header. Behind the last section nothing is added to the length. -/
def encodeBody (pkg : DnsPackage) (max : ℕ) (buffer : Bytes) (index : Index) :
    Except Fault (Bool × ℕ × Bytes × Index) := do
  let (encoded, length, buffer, index) ← encodeSections max pkg.sections 12 buffer index
  if encoded then
    let sublength := if max = 0 then max else sizeSub max length
    let (encoded, out, index) ← encodeAnswers pkg.additionals length sublength buffer index
    .ok (encoded, length, out.buffer, index)
  else .ok (false, length, buffer, index)

/-- `encode(buffer, length, index)`: whether it succeeded, the new length, the buffer and the
index. -/
def encode (pkg : DnsPackage) (buffer : Bytes) (length : ℕ) (index : Index) :
    Except Fault (Bool × ℕ × Bytes × Index) :=
  let index := index.clearPos
  if length = 0 then encodeBody pkg 0 buffer index
  else if length < 12 then .ok (false, 0, buffer, index)
  else do
    let buffer ← store buffer 0 pkg.header
    encodeBody pkg length buffer index

end DnsPackage

end Sese
