import Sese.Net.Http.HttpUtil
import Sese.Service.Http.HttpServiceImpl
import Sese.Util.IOBuf

/-!
# A connection of HTTP/1

`HttpConnection`. A connection has one outstanding operation at a time, and its phase says
which: a read that belongs to a header, a read that belongs to a body, or the writes of a
response. The response is written without reading anything; how it is cut into writes is
not looked at here, and the two counters, which these writes use too, are set again before
they are read. `handled` lists the requests that were given to the service.
-/
namespace Sese.Service.Http

open Foundation
open Sese.Net.Http

/-- `MTU_VALUE`, the size of the buffer of a read. -/
def mtuValue : ℕ := 1472

inductive Phase
  | readHeader | readBody | write | closed
  deriving DecidableEq, Repr

structure HttpConnection extends Handleable where
  expectLength : ℕ := 0
  realLength : ℕ := 0
  is0x0a : Bool := false
  ioBuffer : IOBuf := {}
  phase : Phase := .readHeader
  handled : List Request := []
  deriving DecidableEq

namespace HttpConnection

/-- `expect_length = toInteger(request.get("content-length", "0"))`. -/
def contentLength (request : Request) : ℕ :=
  toUInt64 (toInteger (request.header.get (bytes "content-length") (bytes "0")))

/-- `handleRequest` up to the first write. -/
def handleRequest (env : Env) (c : HttpConnection) : HttpConnection :=
  { c with
    toHandleable := env.handleRequest c.toHandleable
    phase := .write
    handled := c.handled ++ [c.request] }

/-- `streamMove(&request.getBody(), &io_buffer, size)`, unless a filter has refused the
request. -/
def moveBody (c : HttpConnection) (size : ℕ) : Except Fault HttpConnection := do
  if c.connType = .filter then return c
  else
    let (body, ioBuffer) ← Io.streamMove c.request.body c.ioBuffer size
    return { c with request := { c.request with body := body }, ioBuffer := ioBuffer }

/-- The loop over the octets of a read: the flag after them, and whether a carriage return
was found behind a line feed. -/
def scanHeader : Bool → Bytes → Bool × Bool
  | is0x0a, [] => (is0x0a, false)
  | is0x0a, b :: data => if is0x0a && b = 13 then (false, true) else scanHeader (b = 10) data

/-- The octets behind a header, which are all taken as the body. -/
def moveRest (c : HttpConnection) : Except Fault HttpConnection :=
  if c.realLength = 0 then return c else c.moveBody c.realLength

/-- The callback of `readHeader` after the header was parsed. -/
def enterBody (env : Env) (c : HttpConnection) : Except Fault HttpConnection := do
  let c := { c with toHandleable := env.handleFilter c.toHandleable }
  let c := { c with
    expectLength := contentLength c.request
    realLength := c.ioBuffer.getReadableSize }
  let c ← c.moveRest
  let c := { c with ioBuffer := c.ioBuffer.clear }
  if c.expectLength ≠ c.realLength then return { c with phase := .readBody }
  else return c.handleRequest env

/-- The callback of `readHeader`. -/
def onReadHeader (env : Env) (c : HttpConnection) (data : Bytes) :
    Except Fault HttpConnection := do
  let scan := scanHeader c.is0x0a data
  let c := { c with
    keepalive := false
    is0x0a := scan.1
    ioBuffer := c.ioBuffer.push { data := data } }
  if !scan.2 then return c
  else
    let (status, request, ioBuffer) ← recvRequest c.ioBuffer c.request
    let c := { c with request := request, ioBuffer := ioBuffer }
    if !status then return { c with phase := .closed }
    else c.enterBody env

/-- The callback of `readBody`. -/
def onReadBody (env : Env) (c : HttpConnection) (data : Bytes) :
    Except Fault HttpConnection := do
  let c := { c with
    realLength := c.realLength + data.length
    ioBuffer := c.ioBuffer.push { data := data } }
  let c ← c.moveBody data.length
  if c.realLength ≥ c.expectLength then
    let c := { c with ioBuffer := c.ioBuffer.clear }
    return c.handleRequest env
  else return c

/-- `Header::clear`, and `clear` of the cookies that there are. -/
def clearHeader (header : Header) : Header :=
  { headers := .empty, cookies := header.cookies.map fun _ => .empty }

def reset (c : HttpConnection) : HttpConnection :=
  { c with
    connType := .none
    expectLength := 0
    realLength := 0
    ranges := []
    request := { c.request with header := clearHeader c.request.header, body := [] }
    response := { code := 200, header := clearHeader c.response.header, body := [] } }

def checkKeepalive (c : HttpConnection) : HttpConnection :=
  if c.keepalive then { c.reset with phase := .readHeader } else { c with phase := .closed }

inductive Event
  | read (data : Bytes)
  | written
  | failed

def step (env : Env) (c : HttpConnection) : Event → Except Fault HttpConnection
  | .read data =>
    match c.phase with
    | .readHeader => c.onReadHeader env data
    | .readBody => c.onReadBody env data
    | _ => .error .notOutstanding
  | .written => if c.phase = .write then return c.checkKeepalive else .error .notOutstanding
  | .failed => if c.phase = .closed then .error .notOutstanding else return { c with phase := .closed }

/-- The octets of one read arrive, and when that makes a response, it is written. A
connection that was closed reads nothing. -/
def deliver (env : Env) (c : HttpConnection) (data : Bytes) : Except Fault HttpConnection := do
  if c.phase = .closed then return c
  else
    let c ← c.step env (.read data)
    if c.phase = .write then c.step env .written else return c

/-- All reads of a connection. -/
def feed (env : Env) : HttpConnection → List Bytes → Except Fault HttpConnection
  | c, [] => return c
  | c, data :: reads => do
    let c ← c.deliver env data
    feed env c reads

end HttpConnection
end Sese.Service.Http
