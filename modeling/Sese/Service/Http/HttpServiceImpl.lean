import Sese.Net.Http.RequestHeader
import Sese.Service.Http.HttpConnectionEx

/-!
# The service

`handleFilter` and `handleRequest` of `HttpServiceImpl`. The callbacks of the user, the
files of the host and the table of content types, to which the user may add, are
parameters. An unordered map is the list of its entries in the order in which a loop
visits them.
-/
namespace Sese.Service.Http

open Sese.Net.Http

/-- A `FilterCallback` may change the request and the response. -/
abbrev FilterCallback := Request → Response → Bool × Request × Response

/-- The host while an event is handled: its files, and what the language leaves open. -/
structure Host where
  exist : Bytes → Bool
  isRegularFile : Bytes → Bool
  isDirectory : Bytes → Bool
  /-- `io::File::create(filename, B_READ)`. -/
  create : Bytes → Option File
  fileSize : Bytes → ℕ
  /-- The time of the last change, as it is put into a header. -/
  lastModified : Bytes → Bytes
  formatExpires : ℕ → Bytes
  indet : ℕ → UInt8

structure HttpServiceImpl where
  servName : Bytes
  keepalive : ℕ
  mountPoints : List (Bytes × Bytes)
  servlets : List (Bytes × (Request → Response → Request × Response))
  tailFilter : Option FilterCallback
  filters : List (Bytes × FilterCallback)
  /-- `HttpUtil::content_type_map`. -/
  contentTypes : Bytes → Option Bytes

namespace Handleable

def setCode (h : Handleable) (code : ℕ) : Handleable :=
  { h with response := { h.response with code := code } }

/-- `resp.set(key, value)`. -/
def set (h : Handleable) (key : String) (value : Bytes) : Handleable :=
  { h with response := { h.response with header := h.response.header.set (bytes key) value } }

/-- The length of the body of the response as `content-length`. -/
def setLength (h : Handleable) : Handleable :=
  h.set "content-length" (toDecimal h.response.body.length)

def withCallback (h : Handleable) (result : Request × Response) : Handleable :=
  { h with request := result.1, response := result.2 }

end Handleable

/-- `path::extension` without its dot, if the path has one. -/
def pathExtension (path : Bytes) : Option Bytes :=
  let name := (path.reverse.takeWhile (· ≠ 47)).reverse
  let ext := (name.reverse.takeWhile (· ≠ 46)).reverse
  if ext.length + 1 < name.length ∧ name ≠ bytes ".." then some ext else none

def outOfFile (filesize : ℕ) (range : Range) : Bool :=
  (range.start + range.len) % 2 ^ 64 > filesize

/-- The octets of one range with the lines before it, as they are counted for
`content-length`. -/
def partLength (h : Handleable) (range : Range) : ℕ :=
  12 + HttpConnectionEx.httpdBoundary.length + (bytes "Content-Type: ").length +
    h.contentType.length + (bytes "Content-Range: ").length + range.toStringLength h.filesize +
    range.len

/-- The part of `handleRequest` that chooses the ranges of a file; `false` when a range
is not within the file. -/
def chooseRanges (h : Handleable) : Handleable × Bool :=
  let ranges := Range.parse (h.request.header.get (bytes "Range") []) h.filesize
  match ranges with
  | [] =>
    let h := { h with ranges := [⟨0, h.filesize⟩], rangeIterator := 0 }
    ((h.set "content-length" (toDecimal h.filesize)).setCode 200, true)
  | [range] =>
    let h := { h with ranges := [range], rangeIterator := 0 }
    if outOfFile h.filesize range then ((h.setCode 416).setLength, false)
    else ((h.set "content-length" (toDecimal range.len)).setCode 206, true)
  | _ =>
    let h := { h with ranges := ranges, rangeIterator := 0 }
    if ranges.any (outOfFile h.filesize) then ((h.setCode 416).setLength, false)
    else
      let total := ((ranges.map (partLength h)).sum + 6 +
        HttpConnectionEx.httpdBoundary.length) % 2 ^ 64
      let h := h.set "content-type" (bytes "multipart/byteranges; boundary=" ++
        HttpConnectionEx.httpdBoundary)
      ((h.set "content-length" (toDecimal total)).setCode 206, true)

namespace HttpServiceImpl

/-- The content type of a file by its extension. -/
def chooseType (serv : HttpServiceImpl) (filename : Bytes) (h : Handleable) : Handleable :=
  match pathExtension filename with
  | none => h
  | some ext =>
    match serv.contentTypes ext with
    | none => h.set "content-type" h.contentType
    | some type =>
      let h := h.set "content-type" type
      { h with contentType := type }

/-- The branch of `handleRequest` for FILE_DOWNLOAD. When the file cannot be opened, the
type of the connection stays as it is. -/
def download (serv : HttpServiceImpl) (host : Host) (filename : Bytes) (h : Handleable) :
    Handleable :=
  if !host.exist filename || !host.isRegularFile filename || host.isDirectory filename then
    let h := (h.setCode 404).setLength
    { h with connType := .none }
  else
    let h := { h with file := host.create filename }
    if h.file.isNone then (h.setCode 500).setLength
    else
      let h := serv.chooseType filename h
      let r := chooseRanges { h with filesize := host.fileSize filename }
      if r.2 then r.1.set "last-modified" (host.lastModified filename) else r.1

/-- The branch for servlets. -/
def invoke (serv : HttpServiceImpl) (h : Handleable) : Handleable :=
  match serv.servlets.lookup h.request.uri with
  | none => (h.setCode 404).setLength
  | some servlet =>
    let h := h.withCallback (servlet h.request h.response)
    { h with connType := .controller }.setLength

/-- The fields that all responses get. -/
def uniFields (serv : HttpServiceImpl) (h : Handleable) : Handleable :=
  let h :=
    if h.request.version = .version11 then
      let connection := h.request.header.get (bytes "connection") (bytes "close")
      let h := { h with keepalive := strcmpDoNotCase connection (bytes "keep-alive") }
      if h.keepalive then
        (h.set "connection" (bytes "keep-alive")).set "keep-alive"
          (bytes "timeout=" ++ toDecimal serv.keepalive)
      else h
    else h
  (h.set "server" serv.servName).set "accept-range" (bytes "bytes")

/-- The end of `handleRequest`, from the label `uni_handle` on. -/
def uniHandle (serv : HttpServiceImpl) (h : Handleable) : Handleable :=
  let h := serv.uniFields h
  match serv.tailFilter with
  | none => h
  | some tailFilter =>
    if h.response.code = 200 ∨ h.response.code = 201 then h
    else
      let r := tailFilter h.request h.response
      let h := h.withCallback r.2
      if r.1 then { h with connType := .controller }.setLength else h

def mountPoint (serv : HttpServiceImpl) (uri : Bytes) : Option (Bytes × Bytes) :=
  serv.mountPoints.find? fun m => m.1.isPrefixOf uri

/-- `mount_point + "/" + req.getUri().substr(uri_prefix.length())`. -/
def mountedFile (m : Bytes × Bytes) (uri : Bytes) : Bytes :=
  m.2 ++ bytes "/" ++ uri.drop m.1.length

/-- The loop of `handleFilter`. -/
def filterLoop : List (Bytes × FilterCallback) → Handleable → Handleable
  | [], h => h
  | (uriPrefix, callback) :: rest, h =>
    if uriPrefix.isPrefixOf h.request.uri then
      let r := callback h.request h.response
      let h := h.withCallback r.2
      if r.1 then filterLoop rest { h with connType := .none } else { h with connType := .filter }
    else filterLoop rest h

def handleFilter (serv : HttpServiceImpl) (h : Handleable) : Handleable :=
  filterLoop serv.filters h

/-- The mount point that `handleRequest` selects; requests that have a type already are
not matched. -/
def mounted (serv : HttpServiceImpl) (h : Handleable) : Option (Bytes × Bytes) :=
  if h.connType = .none then serv.mountPoint h.request.uri else none

def handleRequest (serv : HttpServiceImpl) (host : Host) (h : Handleable) : Handleable :=
  match serv.mounted h with
  | some m => serv.uniHandle
      (serv.download host (mountedFile m h.request.uri) { h with connType := .fileDownload })
  | none =>
    match h.connType with
    | .none => serv.uniHandle (serv.invoke h)
    -- the file name is still empty
    | .fileDownload => serv.uniHandle (serv.download host [] h)
    | _ => serv.uniHandle h

/-- The service behind a connection. -/
def env (serv : HttpServiceImpl) (host : Host) : Env where
  handleFilter := serv.handleFilter
  handleRequest := serv.handleRequest host
  formatExpires := host.formatExpires
  indet := host.indet

/-- A service with one mount point. -/
def fileService : HttpServiceImpl where
  servName := bytes "sese"
  keepalive := 0
  mountPoints := [(bytes "/static/", bytes "/srv")]
  servlets := []
  tailFilter := none
  filters := []
  contentTypes _ := none

end HttpServiceImpl
end Sese.Service.Http
