import Sese.Net.Http.HttpUtil
import Sese.Text.DateTimeFormatter

/-!
# Responses of HTTP/1

`HttpUtil::parseFromSetCookie`, `recvHeader` for requests and responses, and `recvResponse`.
-/
namespace Sese.Net.Http

open Foundation
open Sese.Io

/-- `find('=')`, and what is before and behind it. -/
def keyValue (one : Bytes) : Option (Bytes × Bytes) :=
  (one.findIdx? fun b => b = 61).map fun index => (one.take index, one.drop (index + 1))

/-- An attribute of a cookie with a value. -/
def Cookie.setValue (cookie : Cookie) (key value : Bytes) : Except Fault Cookie :=
  if strcmpDoNotCase key (bytes "max-age") then do
    let age ← stoll value
    .ok { cookie with maxAge := toUInt64 age }
  else if strcmpDoNotCase key (bytes "expires") then do
    let expires ← DateTimeFormatter.parseFromGreenwich value
    .ok { cookie with expires := expires }
  else if strcmpDoNotCase key (bytes "path") then .ok { cookie with path := value }
  else if strcmpDoNotCase key (bytes "domain") then .ok { cookie with domain := value }
  else .ok cookie

def Cookie.setFlag (cookie : Cookie) (one : Bytes) : Cookie :=
  if strcmpDoNotCase one (bytes "secure") then { cookie with secure := true }
  else if strcmpDoNotCase one (bytes "httponly") then { cookie with httpOnly := true }
  else cookie

/-- The loop of `parseFromSetCookie` behind its first round. -/
def setAttributes : List Bytes → Cookie → Except Fault Cookie
  | [], cookie => .ok cookie
  | one :: attributes, cookie =>
    match keyValue one with
    | some (key, value) => do
      let cookie ← cookie.setValue key value
      setAttributes attributes cookie
    | none => setAttributes attributes (cookie.setFlag one)

/-- `parseFromSetCookie`; `none` is the null pointer. -/
def parseFromSetCookie (text : Bytes) : Except Fault (Option Cookie) :=
  match split text (bytes "; ") with
  | [] => .ok none
  | first :: attributes =>
    match keyValue first with
    | none => .ok none
    | some (name, value) => do
      let cookie ← setAttributes attributes { name := name, value := value }
      .ok (some cookie)

variable {σ : Type} [InputStream σ]

/-- What `recvHeader` does with a field. -/
def keepField (is_resp : Bool) (header : Header) (cookies : Option CookieMap)
    (field : Bytes × Bytes) : Except Fault (Header × Option CookieMap) :=
  if is_resp then
    if strcmpDoNotCase field.1 (bytes "Set-Cookie") then do
      match ← parseFromSetCookie field.2 with
      | some cookie => .ok (header, cookies.map fun cookies => CookieMap.add cookies cookie)
      | none => .ok (header, cookies)
    else .ok (header.set field.1 field.2, cookies)
  else .ok (storeField header cookies field)

/-- The loop of `recvHeader`, for requests and responses. -/
def recvFieldsLoop (is_resp : Bool) :
    ℕ → σ → Header → Option CookieMap → Except Fault (Bool × Header × σ)
  | 0, _, _, _ => .error .endlessLoop
  | fuel + 1, source, header, cookies => do
    let (status, line, source) ← getLine source []
    if !status then return (false, header, source)
    else if line.isEmpty then return (true, { header with cookies := cookies }, source)
    else
      match ← fieldOf line with
      | none => return (false, header, source)
      | some field =>
        let stored ← keepField is_resp header cookies field
        recvFieldsLoop is_resp fuel source stored.1 stored.2

/-- `recvHeader` with its last argument. A response starts with an empty map of cookies. -/
def recvFields (is_resp : Bool) (source : σ) (header : Header) : Except Fault (Bool × Header × σ) :=
  recvFieldsLoop is_resp (InputStream.left source + 1) source header
    (if is_resp then some .empty else none)

theorem recvFieldsLoop_request (fuel : ℕ) (source : σ) (header : Header)
    (cookies : Option CookieMap) :
    recvFieldsLoop false fuel source header cookies = recvHeaderLoop fuel source header cookies := by
  induction fuel generalizing source header cookies with
  | zero => rfl
  | succ fuel ih =>
    rw [recvFieldsLoop, recvHeaderLoop]
    congr 1
    funext r
    dsimp only
    split_ifs
    · rfl
    · rfl
    · congr 1
      funext f
      cases f with
      | none => rfl
      | some field => exact ih _ _ _

theorem recvFields_request (source : σ) (header : Header) :
    recvFields false source header = recvHeader source header :=
  recvFieldsLoop_request _ _ _ _

structure ResponseHeader where
  header : Header := {}
  code : UInt16 := 200
  version : HttpVersion := .version11
  deriving DecidableEq

/-- `recvResponse`; the first line is split, and two of its pieces are looked at. -/
def recvResponse (source : σ) (response : ResponseHeader) :
    Except Fault (Bool × ResponseHeader × σ) := do
  let (status, line, source) ← getLine source []
  if !status then return (false, response, source)
  else
    match pieces line (bytes " ") with
    | version :: code :: _ =>
      let response := { response with
        version := if version = bytes "HTTP/1.1" then .version11 else .unknown
        code := .ofNat (toUInt64 (toInteger code)) }
      let (status, header, source) ← recvFields true source response.header
      return (status, { response with header := header }, source)
    | _ => .error .overread

end Sese.Net.Http
