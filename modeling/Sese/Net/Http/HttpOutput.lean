import Sese.Net.Http.RequestUrl
import Sese.Net.Http.SetCookie

/-!
# What is written to a connection

`HttpUtil::sendRequest`, `sendResponse`, `sendHeader`, `sendCookie` and `sendSetCookie`, for a
stream that takes everything.
-/
namespace Sese.Net.Http

open Foundation

def fieldLine (field : Bytes × Bytes) : Bytes := field.1 ++ (bytes ": " ++ field.2)

/-- `name=value`. -/
def cookiePair (cookie : Bytes × Cookie) : Bytes := cookie.1 ++ (bytes "=" ++ cookie.2.value)

def sendCookie (cookies : CookieMap) : Bytes :=
  if cookies.entries = [] then []
  else bytes "Cookie: " ++ ((bytes "; ").intercalate (cookies.entries.map cookiePair) ++ [13, 10])

/-- The attributes that `sendSetCookie` writes. The time of `expires` is written when there is
no age. -/
def cookieAttributes (cookie : Cookie) : Bytes :=
  (if cookie.path = [] then [] else bytes "; Path=" ++ cookie.path) ++
  (if cookie.domain = [] then [] else bytes "; Domain=" ++ cookie.domain) ++
  (if cookie.maxAge > 0 then bytes "; Max-Age=" ++ toDecimal cookie.maxAge
    else if cookie.expires > 0 then bytes "; Expires=" ++
      DateTimeFormatter.format (.new (cookie.expires * 1000000 % 2 ^ 64))
        DateTimeFormatter.TIME_GREENWICH_MEAN_PATTERN
    else []) ++
  (if cookie.secure then bytes "; Secure" else []) ++
  (if cookie.httpOnly then bytes "; HttpOnly" else [])

def sendSetCookie (cookies : CookieMap) : Bytes :=
  cookies.entries.flatMap fun cookie =>
    bytes "Set-Cookie: " ++ cookiePair cookie ++ cookieAttributes cookie.2 ++ [13, 10]

def sendHeader (header : Header) (is_resp : Bool) : Bytes :=
  (header.headers.entries.flatMap fun field => fieldLine field ++ [13, 10]) ++
  (match header.cookies with
    | none => []
    | some cookies => if is_resp then sendSetCookie cookies else sendCookie cookies) ++
  [13, 10]

def requestTypeToString : RequestType → Bytes
  | .options => bytes "OPTIONS"
  | .get => bytes "GET"
  | .post => bytes "POST"
  | .head => bytes "HEAD"
  | .put => bytes "PUT"
  | .delete => bytes "DELETE"
  | .trace => bytes "TRACE"
  | .connect => bytes "CONNECT"
  | .another => bytes "ANOTHER"

/-- `sendRequest`: the result and what was written. -/
def sendRequest (request : RequestHeader) : Bool × Bytes :=
  let start := requestTypeToString request.type ++ bytes " " ++ request.getUrl
  if request.version = .version11 then
    (true, start ++ bytes " HTTP/1.1" ++ [13, 10] ++ sendHeader request.header false)
  else (false, start)

/-- `sendResponse`: the result and what was written. -/
def sendResponse (response : ResponseHeader) : Bool × Bytes :=
  if response.version = .version11 then
    (true, bytes "HTTP/1.1 " ++ toDecimal response.code.toNat ++ [13, 10] ++
      sendHeader response.header true)
  else (false, [])

end Sese.Net.Http
