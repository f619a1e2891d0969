import Sese.Foundation.Outcome
import Sese.Net.Http.Huffman
import Sese.Net.Http.DynamicTable
import Sese.Net.Http.Header
import Sese.Net.Http.Http2Frame

/-!
# HPACK encoding and decoding

`HPackUtil`. Reading from a stream consumes octets of a list, writing appends to
one. `decode` returns the code of the source (0, or the error to answer with)
together with the input, the table and the header as it leaves them, also on an
error.

`decodeString` uses an octet that it has not read when the input is exhausted;
that octet is the parameter `indet`, taken by `decode` as a function of the
number of octets counted so far.
-/
namespace Sese.Net.Http
namespace HPackUtil

/-- The `while` loop of the integer encoders: the octets it writes and the index
it leaves. An index is a `size_t`, so ten rounds are enough. -/
def encodeLoop : ℕ → ℕ → Bytes × ℕ
  | 0, index => ([], index)
  | rounds + 1, index =>
    if index ≥ 128 then
      let r := encodeLoop rounds (index / 128)
      (UInt8.ofNat (index % 128 + 128) :: r.1, r.2)
    else ([], index)

/-- An integer with an `n` bit prefix under the bits of `pattern`. -/
def encodePrefixed (pattern : UInt8) (n index : ℕ) : Bytes :=
  if index < 2 ^ n - 1 then [pattern ||| UInt8.ofNat index]
  else
    let r := encodeLoop 10 (index - (2 ^ n - 1))
    (pattern ||| UInt8.ofNat (2 ^ n - 1)) :: (r.1 ++ [UInt8.ofNat r.2])

/-- Unlike its three siblings this one does not write the octet that the loop
leaves in `index`. -/
def encodeIndexCase0 (index : ℕ) : Bytes :=
  if index < 2 ^ 7 - 1 then [0x80 ||| UInt8.ofNat index]
  else (0x80 ||| 0x7F) :: (encodeLoop 10 (index - (2 ^ 7 - 1))).1

def encodeIndexCase1 (index : ℕ) : Bytes := encodePrefixed 0x40 6 index

def encodeIndexCase2 (index : ℕ) : Bytes := encodePrefixed 0x00 4 index

def encodeIndexCase3 (index : ℕ) : Bytes := encodePrefixed 0x10 4 index

/-- The `while` loop of `decodeInteger`: value, number of octets read, and the rest
of the input; `none` when the input ends first. -/
def decodeLoop : Bytes → ℕ → ℕ → ℕ → Except Fault (Option (ℕ × ℕ × Bytes))
  | [], _, _, _ => .ok none
  | buf :: src, dest, m, len =>
    if m ≥ 32 then .error .wideShift
    else
      let dest := (dest + (buf &&& 0x7F).toNat * 2 ^ m) % 2 ^ 32
      if buf &&& 0x80 = 0 then .ok (some (dest, len + 1, src))
      else decodeLoop src dest (m + 7) (len + 1)

def decodeInteger (buf : UInt8) (src : Bytes) (n : ℕ) : Except Fault (Option (ℕ × ℕ × Bytes)) :=
  let dest := buf.toNat % 2 ^ n
  if dest = 2 ^ n - 1 then decodeLoop src dest 0 0 else .ok (some (dest, 0, src))

def encodeString (str : Bytes) : Bytes :=
  if str.length > 8 then
    let code := huffmanEncode str
    encodePrefixed 0x80 7 code.length ++ code
  else encodePrefixed 0x00 7 str.length ++ str

/-- The string with the number of octets it took, and the rest of the input. -/
def decodeString (indet : UInt8) (src : Bytes) : Except Fault (Option (Bytes × ℕ) × Bytes) := do
  let buf := src.headD indet
  match ← decodeInteger buf src.tail 7 with
  | none => return (none, [])
  | some (len, l, src) =>
    if len > 65535 then return (none, src)
    else if src.length < len then return (none, [])
    else
      let buffer := src.take len
      let src := src.drop len
      if buf &&& 0x80 = 0x80 then
        return ((huffmanDecode buffer).map fun s => (s, 1 + l + len), src)
      -- a full buffer has no terminator of its own
      else if len = 65535 ∧ (0 : UInt8) ∉ buffer then throw .overread
      else return (some (cstr buffer, 1 + l + len), src)

def reqPseudoHeader : List Bytes :=
  [bytes ":method", bytes ":scheme", bytes ":authority", bytes ":path"]

def setHeader (header : Header) (key value : Bytes) : Header × Bool :=
  if !header.exist key then (header.set key value, true)
  else if key = bytes ":status" then (header, false)
  else if key ∈ reqPseudoHeader then (header, false)
  else (header.set key value, true)

def verifyHeader (header : Header) (isResp : Bool) : Bool :=
  if isResp then !reqPseudoHeader.any header.exist && header.exist (bytes ":status")
  else reqPseudoHeader.all header.exist && !header.exist (bytes ":status")

/-- The variables of `decode` that live across its loop. -/
structure DecodeState where
  src : Bytes
  len : ℕ := 0
  table : DynamicTable
  header : Header := {}
  hasPseudo : Bool := true
  deriving DecidableEq

/-- The last part of a loop round: the field goes to the header. The first
component is the code to return, 0 to go on. -/
def storeField (s : DecodeState) (key value : Bytes) : ℕ × DecodeState :=
  if strcmpDoNotCase key (bytes "Cookie") then
    (0, { s with header := s.header.setCookies (parseFromCookie value) })
  else if key.head? = some 58 then
    if !s.hasPseudo then (goawayCompressionError, s)
    else
      let r := setHeader s.header key value
      (if r.2 then 0 else goawayProtocolError, { s with header := r.1 })
  else (0, { s with hasPseudo := false, header := s.header.set key value })

/-- Case 0, an indexed field. -/
def decodeIndexed (buf : UInt8) (s : DecodeState) : Except Fault (ℕ × DecodeState) := do
  match ← decodeInteger buf s.src 7 with
  | none => return (goawayCompressionError, { s with src := [] })
  | some (index, l, src) =>
    let s := { s with src := src, len := s.len + l }
    if index = 0 then return (goawayCompressionError, s)
    else
      match s.table.get index with
      | none => return (goawayCompressionError, s)
      | some pair => return storeField s pair.1 pair.2

/-- Case 4, a change of the table size. -/
def decodeSizeUpdate (limit : ℕ) (buf : UInt8) (s : DecodeState) :
    Except Fault (ℕ × DecodeState) := do
  match ← decodeInteger buf s.src 5 with
  | none => return (goawayCompressionError, { s with src := [] })
  | some (newSize, l, src) =>
    let s := { s with src := src, len := s.len + l }
    if newSize > limit then return (goawayCompressionError, s)
    else return (0, { s with table := ← s.table.resize newSize })

def readString (indet : ℕ → UInt8) (s : DecodeState) : Except Fault (Option Bytes × DecodeState) := do
  match ← decodeString (indet s.len) s.src with
  | (none, src) => return (none, { s with src := src })
  | (some (str, l), src) => return (some str, { s with src := src, len := s.len + l })

/-- The name of a literal: taken from the tables, or a string of its own. -/
def readKey (indet : ℕ → UInt8) (index : ℕ) (s : DecodeState) :
    Except Fault (Option Bytes × DecodeState) :=
  if index ≠ 0 then .ok ((s.table.get index).map Prod.fst, s) else readString indet s

/-- Cases 1 (`isStore`, 6 bit prefix), 2 and 3 (4 bit prefix), literals. -/
def decodeLiteral (indet : ℕ → UInt8) (n : ℕ) (isStore : Bool) (buf : UInt8) (s : DecodeState) :
    Except Fault (ℕ × DecodeState) := do
  match ← decodeInteger buf s.src n with
  | none => return (goawayCompressionError, { s with src := [] })
  | some (index, l, src) =>
    match ← readKey indet index { s with src := src, len := s.len + l } with
    | (none, s) => return (goawayCompressionError, s)
    | (some key, s) =>
      match ← readString indet s with
      | (none, s) => return (goawayCompressionError, s)
      | (some value, s) =>
        if isStore then
          let r ← s.table.set key value
          return storeField { s with table := r.1 } key value
        else return storeField s key value

/-- One round of the loop of `decode`. -/
def decodeField (indet : ℕ → UInt8) (limit : ℕ) (s : DecodeState) :
    Except Fault (ℕ × DecodeState) :=
  match s.src with
  | [] => .ok (goawayCompressionError, s)
  | buf :: src =>
    let s := { s with src := src, len := s.len + 1 }
    if buf &&& 0x80 ≠ 0 then decodeIndexed buf s
    else if buf &&& 0xE0 = 0x20 then decodeSizeUpdate limit buf s
    else if buf &&& 0xC0 = 0x40 then decodeLiteral indet 6 true buf s
    else decodeLiteral indet 4 false buf s

/-- The loop of `decode`. Every round counts at least one octet, so after
`contentLength` rounds the loop condition is false. -/
def decodeFields (indet : ℕ → UInt8) (contentLength limit : ℕ) :
    ℕ → DecodeState → Except Fault (ℕ × DecodeState)
  | 0, s => .ok (0, s)
  | rounds + 1, s =>
    if s.len < contentLength then do
      let r ← decodeField indet limit s
      if r.1 ≠ 0 then return r else decodeFields indet contentLength limit rounds r.2
    else .ok (0, s)

/-- `HPackUtil::decode`; `limit` is 8192 unless the caller gives one. -/
def decode (indet : ℕ → UInt8) (src : Bytes) (contentLength : ℕ) (table : DynamicTable)
    (header : Header) (isResp : Bool) (hasPseudo : Bool := true) (limit : ℕ := 8192) :
    Except Fault (ℕ × DecodeState) := do
  let (code, s) ← decodeFields indet contentLength limit contentLength
    { src := src, table := table, header := header, hasPseudo := hasPseudo }
  if code ≠ 0 then return (code, s)
  else if !verifyHeader s.header isResp then return (goawayProtocolError, s)
  else return (0, s)

/-- The search loops of `encode`: the position of the last entry with the name
that was passed, and that of the first entry with name and value, where the loop
stops. -/
def lookup (key value : Bytes) : List (Bytes × Bytes) → ℕ → Option ℕ → Option ℕ × Option ℕ
  | [], _, byKey => (byKey, none)
  | e :: entries, i, byKey =>
    if e.1 = key then
      if e.2 = value then (some i, some i) else lookup key value entries (i + 1) (some i)
    else lookup key value entries (i + 1) byKey

/-- The index that stands for position `i` of the queue. -/
def dynamicIndex (table : DynamicTable) (i : ℕ) : ℕ :=
  table.queue.length - 1 - i + predefinedHeaders.length

/-- One field of `indexed_header`. -/
def encodeIndexed (table : DynamicTable) (item : Bytes × Bytes) :
    Except Fault (Bytes × DynamicTable) := do
  match lookup item.1 item.2 table.queue 0 none with
  | (_, some i) => return (encodeIndexCase0 (dynamicIndex table i), table)
  | (some i, none) =>
    let r ← table.set item.1 item.2
    return (encodeIndexCase1 (dynamicIndex table i) ++ encodeString item.2, r.1)
  | (none, none) =>
    match lookup item.1 item.2 predefinedHeaders 0 none with
    | (_, some i) => return (encodeIndexCase0 i, table)
    | (some i, none) =>
      let r ← table.set item.1 item.2
      return (encodeIndexCase1 i ++ encodeString item.2, r.1)
    | (none, none) =>
      let r ← table.set item.1 item.2
      return (encodeIndexCase1 0 ++ encodeString item.1 ++ encodeString item.2, r.1)

/-- One field of `once_header`; the table is searched but not changed. -/
def encodeOnce (table : DynamicTable) (item : Bytes × Bytes) : Bytes :=
  match lookup item.1 item.2 table.queue 0 none with
  | (_, some i) => encodeIndexCase0 (i + 62)
  | (some i, none) => encodeIndexCase2 (i + 62) ++ encodeString item.2
  | (none, none) =>
    match lookup item.1 item.2 predefinedHeaders 0 none with
    | (_, some i) => encodeIndexCase0 i
    | (some i, none) => encodeIndexCase2 i ++ encodeString item.2
    | (none, none) => encodeIndexCase3 0 ++ encodeString item.1 ++ encodeString item.2

/-- The loop over `indexed_header`. -/
def encodeFields : DynamicTable → List (Bytes × Bytes) → Except Fault (Bytes × DynamicTable)
  | table, [] => .ok ([], table)
  | table, item :: items => do
    let (out, table) ← encodeIndexed table item
    let (rest, table) ← encodeFields table items
    return (out ++ rest, table)

/-- `buildCookieString`; `formatExpires` is `DateTimeFormatter::format` of a time
stamp with `TIME_GREENWICH_MEAN_PATTERN`. -/
def buildCookieString (formatExpires : ℕ → Bytes) (cookie : Cookie) : Bytes :=
  cookie.name ++ bytes "=" ++ cookie.value ++
    (if cookie.path.isEmpty then [] else bytes "; " ++ cookie.path) ++
    (if cookie.domain.isEmpty then [] else bytes "; " ++ cookie.domain) ++
    (if cookie.maxAge > 0 then bytes "; Max-Age=" ++ toDecimal cookie.maxAge
      else if cookie.expires > 0 then bytes "; Expires=" ++ formatExpires cookie.expires
      else []) ++
    (if cookie.secure then bytes "; Secure" else []) ++
    (if cookie.httpOnly then bytes "; HttpOnly" else [])

def encodeCookies (formatExpires : ℕ → Bytes) (cookies : Option CookieMap) : Bytes :=
  match cookies with
  | none => []
  | some cookies => cookies.entries.flatMap fun cookie =>
      encodeIndexCase2 0 ++ encodeString (bytes "Set-Cookie") ++
        encodeString (buildCookieString formatExpires cookie.2)

/-- `HPackUtil::encode`: what is written to `dest`, and the table afterwards. -/
def encode (formatExpires : ℕ → Bytes) (table : DynamicTable) (onceHeader indexedHeader : Header) :
    Except Fault (Bytes × DynamicTable) := do
  let (out, table) ← encodeFields table indexedHeader.headers.entries
  return (out ++ onceHeader.headers.entries.flatMap (encodeOnce table) ++
    encodeCookies formatExpires onceHeader.cookies ++
    encodeCookies formatExpires indexedHeader.cookies, table)

end HPackUtil
end Sese.Net.Http
