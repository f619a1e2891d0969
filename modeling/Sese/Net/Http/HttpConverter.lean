import Sese.Net.Http.Header

/-!
# Requests and responses

`Request`, `Response`, `Range`, and the conversion between their HTTP/2 and
HTTP/1 forms. Bodies are `ByteBuilder`s; such a builder is the list of octets
that were written and not read yet.
-/
namespace Sese.Net.Http

inductive RequestType
  | options | get | post | head | put | delete | trace | connect | another
  deriving DecidableEq, Repr

inductive HttpVersion
  | version11 | version2 | unknown
  deriving DecidableEq, Repr

/-- `Request`. `url` is the argument of the last `setUrl`, from which path and
query are computed. -/
structure Request where
  header : Header := {}
  type : RequestType := .get
  url : Bytes := bytes "/"
  version : HttpVersion := .version11
  body : Bytes := []
  deriving DecidableEq

structure Response where
  header : Header := {}
  code : ℕ := 200
  body : Bytes := []
  deriving DecidableEq

/-- The methods that `convertFromHttp2` knows. -/
def requestMethods : List (Bytes × RequestType) :=
  [(bytes "get", .get), (bytes "options", .options), (bytes "post", .post),
    (bytes "head", .head), (bytes "put", .put), (bytes "delete", .delete),
    (bytes "trace", .trace), (bytes "connect", .connect)]

/-- `HttpConverter::convertFromHttp2`; the method is checked last, when the URL
has been set already. -/
def convertFromHttp2 (request : Request) : Request × Bool :=
  let header := request.header
  if !header.exist (bytes ":path") || !header.exist (bytes ":method") ||
      !header.exist (bytes ":scheme") then (request, false)
  else if (header.get (bytes ":path") []).isEmpty then (request, false)
  else
    let request := { request with
      version := .version2
      url := header.get (bytes ":path") (bytes "/") }
    let method := header.get (bytes ":method") (bytes "get")
    match requestMethods.find? fun m => strcmpDoNotCase method m.1 with
    | some m => ({ request with type := m.2 }, true)
    | none => (request, false)

def convert2Http2 (response : Response) : Response :=
  { response with header := response.header.set (bytes ":status") (toDecimal response.code) }

structure Range where
  start : ℕ
  len : ℕ
  deriving DecidableEq, Repr

/-- `Range::toString`, with the arithmetic of `size_t`. -/
def Range.toString (range : Range) (total : ℕ) : Bytes :=
  bytes "bytes " ++ toDecimal range.start ++ bytes "-" ++
    toDecimal ((range.start + range.len + 2 ^ 64 - 1) % 2 ^ 64) ++ bytes "/" ++ toDecimal total

end Sese.Net.Http
