import Sese.Foundation.OrdMap
import Sese.Util.Bytes

/-!
# Header fields and cookies

`StrCaseMap`, `CookieMap` and `Header`. The fields of a header are a `std::map`
ordered by `strcasecmp`: they are visited in that order, and names that differ in
case only, or only after a NUL, are one name.
-/
namespace Sese.Net.Http

open Foundation

/-- `sese::StrCaseMap<std::string>`. -/
abbrev StrCaseMap := OrdMap foldCase Bytes

structure Cookie where
  name : Bytes
  value : Bytes
  path : Bytes := []
  domain : Bytes := []
  maxAge : ℕ := 0
  expires : ℕ := 0
  secure : Bool := false
  httpOnly : Bool := false
  deriving DecidableEq

/-- The order of `std::string`: lexicographic in unsigned octets. -/
def byteOrder (s : Bytes) : List ℕ := s.map UInt8.toNat

abbrev CookieMap := OrdMap byteOrder Cookie

@[ext] structure Header where
  headers : StrCaseMap := .empty
  cookies : Option CookieMap := none
  deriving DecidableEq

namespace Header

def set (h : Header) (key value : Bytes) : Header :=
  { h with headers := h.headers.insert key value }

def exist (h : Header) (key : Bytes) : Bool := h.headers.contains key

/-- `get` with a default value. -/
def get (h : Header) (key default : Bytes) : Bytes := (h.headers.find? key).getD default

def setCookies (h : Header) (cookies : CookieMap) : Header := { h with cookies := some cookies }

end Header

def CookieMap.add (m : CookieMap) (cookie : Cookie) : CookieMap := m.insert cookie.name cookie

/-- `HttpUtil::parseFromCookie`: pieces that are not `name=value` are skipped. -/
def parseFromCookie (text : Bytes) : CookieMap :=
  (split text (bytes "; ")).foldl (fun cookies one =>
    match split one (bytes "=") with
    | [name, value] => CookieMap.add cookies { name := name, value := value }
    | _ => cookies) .empty

end Sese.Net.Http
