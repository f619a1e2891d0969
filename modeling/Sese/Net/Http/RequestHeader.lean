import Sese.Net.Http.HttpConverter

/-!
# The URL and the ranges of a request

`PercentConverter::decode`, the path that `RequestHeader::setUrl` takes from a URL,
and `Range::parse`.
-/
namespace Sese.Net.Http

/-- `getHexChar`; `none` stands for -1. -/
def hexChar (ch : UInt8) : Option UInt8 :=
  if 65 ≤ ch.toNat ∧ ch.toNat ≤ 70 then some (ch - 55)
  else if 97 ≤ ch.toNat ∧ ch.toNat ≤ 102 then some (ch - 87)
  else if 48 ≤ ch.toNat ∧ ch.toNat ≤ 57 then some (ch - 48)
  else none

/-- The loop of `PercentConverter::decode`, up to the NUL at the end of the string,
which is no hexadecimal digit either. -/
def decodeLoop : Bytes → Option Bytes
  | [] => some []
  | b :: src =>
    if b = 37 then
      match src with
      | h₁ :: h₀ :: src => do
        let ch₁ ← hexChar h₁
        let ch₀ ← hexChar h₀
        let dest ← decodeLoop src
        return (ch₁ * 0x10 + ch₀) :: dest
      | _ => none
    else (decodeLoop src).map (b :: ·)

/-- `PercentConverter::decode`: a `%` that is not followed by two digits makes the
whole result empty. -/
def percentDecode (src : Bytes) : Bytes := (decodeLoop (cstr src)).getD []

/-- What is before the first `?`. -/
def beforeQuery (url : Bytes) : Bytes := url.takeWhile (· ≠ 63)

/-- `getUri` after `setUrl`. -/
def Request.uri (request : Request) : Bytes := percentDecode (beforeQuery request.url)

/-- One range of `Range::parse`. The positions are of type `long` and are compared with
`total - 1`, which is of type `size_t`. -/
def Range.parseOne (total : ℕ) (item : Bytes) : Option Range :=
  let last := (total + 2 ^ 64 - 1) % 2 ^ 64
  match split item (bytes "-") with
  | [first] =>
    let start := toInteger first
    if toUInt64 start > last then none else some ⟨toUInt64 start, toUInt64 (total - start)⟩
  | [first, second] =>
    let start := toInteger first
    let stop := toInteger second
    if toUInt64 start > last ∨ toUInt64 stop > last then none
    else if start > stop then none
    else some ⟨toUInt64 start, toUInt64 (stop - start + 1)⟩
  | _ => none

def Range.parse (str : Bytes) (total : ℕ) : List Range :=
  match split str (bytes "=") with
  | [unit, list] =>
    let items := split list (bytes ",")
    if unit ≠ bytes "bytes" ∨ items.length > 16 then []
    else (items.mapM (Range.parseOne total)).getD []
  | _ => []

/-- The loop of `number2StringLength`, for the radix 10. -/
def number2StringLoop (num length : ℕ) : ℕ :=
  if num / 10 > 0 then number2StringLoop (num / 10) (length + 1) else length + 1
termination_by num

/-- `number2StringLength` of an unsigned integer, for the radix 10. -/
def number2StringLength (num : ℕ) : ℕ := if num = 0 then 1 else number2StringLoop num 0

def Range.toStringLength (range : Range) (total : ℕ) : ℕ :=
  (bytes "bytes ").length + number2StringLength range.start + (bytes "-").length +
    number2StringLength ((range.start + range.len + 2 ^ 64 - 1) % 2 ^ 64) + (bytes "/").length +
    number2StringLength total

end Sese.Net.Http
