import Sese.Foundation.Runs
import Sese.Net.Http.HPackUtil
import Sese.Service.Http.HttpStream

/-!
# The HTTP/2 connection

`HttpConnectionEx` with its transport `HttpConnectionExImpl`. A connection is a
state machine that is driven by the completions of the asynchronous operations it
has started: `reads` and `writes` are the operations outstanding, an event
completes one of them, and the callback runs to its end within the step.

What the service does with a request (filters, servlets, files) is the parameter
`Env`; it may differ from event to event. `trace` is not part of the program: it
records, newest first, what the properties of the connection speak about.

A stream is stored under its `id`, so `HttpStream` has no such field here. The
source holds streams by shared pointers; a stream that was erased while a handler
still holds it is kept in `retired`.
-/
namespace Sese.Service.Http

open Foundation Sese.Net.Http

def localMaxFrameSize : ℕ := 16384
def localInitWindowSize : ℕ := 65535
def localHeaderTableSize : ℕ := 8192
def localMaxConcurrentStreams : ℕ := 16

inductive ReadKind
  | magic | frameHeader | payload
  deriving DecidableEq, Repr

/-- An outstanding read of `length` octets into `temp_buffer + offset`. -/
structure ReadOp where
  kind : ReadKind
  offset : ℕ
  length : ℕ
  deriving DecidableEq, Repr

/-- An outstanding write: of the queue, or of a single last frame. -/
inductive WriteOp
  | blocks | once
  deriving DecidableEq, Repr

/-- A stream that comes to its body in a round, and what limits the DATA it sends: the
windows of the connection and of the stream, the size of a frame and what is left. -/
structure DataTurn where
  id : ℕ
  connectionWindow : ℕ
  streamWindow : ℕ
  frameSize : ℕ
  bytesLeft : ℕ
  deriving DecidableEq

/-- What is observed of a run. -/
inductive Obs
  /-- A frame has arrived with its payload. -/
  | recv (frame : Http2FrameInfo)
  /-- A DATA frame has passed the flow control check. -/
  | accepted (id length : ℕ)
  /-- A frame was put into `pre_vector`. -/
  | put (frame : Http2Frame)
  /-- A frame was written past the queue. -/
  | alone (frame : Http2Frame)
  | readBlock (length : ℕ)
  /-- A stream was created with this `endpoint_window_size`. -/
  | opened (id window : ℕ)
  /-- An increment of a WINDOW_UPDATE frame was added to a window. -/
  | credit (id increment : ℕ)
  /-- Octets of this frame were appended to the header block of its stream. -/
  | fragment (frame : Http2FrameInfo) (block : Bytes)
  /-- `HPackUtil::decode` returned `code` on the header block of a stream. -/
  | decoded (id : ℕ) (block : Bytes) (code : ℕ)
  /-- `HttpConverter::convertFromHttp2` returned `ok` for a stream. -/
  | converted (id : ℕ) (ok : Bool)
  /-- `handleRequest` was called for a stream. -/
  | request (id : ℕ)
  /-- `writeGoawayFrame` was called while this frame was handled. -/
  | goaway (frame : Http2FrameInfo) (code : ℕ)
  /-- The loop of `handleWrite` was entered, with these streams to send DATA. -/
  | round (turns : List DataTurn)
  deriving DecidableEq

/-- The service behind the connection, and what the language leaves open: the
format of a date and the values of uninitialised variables. -/
structure Env where
  handleFilter : Handleable → Handleable
  handleRequest : Handleable → Handleable
  formatExpires : ℕ → Bytes
  indet : ℕ → UInt8

structure HttpConnectionEx where
  isRead : Bool := false
  isWrite : Bool := false
  expectAck : Bool := false
  acceptStreamCount : ℕ := 0
  latestStreamIdent : ℕ := 0
  frame : Http2FrameInfo := {}
  /-- The written part of the buffer, which is zero beyond it. -/
  tempBuffer : Bytes := []
  headerTableSize : ℕ := 4096
  enablePush : ℕ := 0
  maxConcurrentStream : ℕ := 0
  endpointInitWindowSize : ℕ := 65535
  endpointWindowSize : ℕ := 65535
  windowSize : ℕ := 65535
  endpointMaxFrameSize : ℕ := 16384
  maxFrameSize : ℕ := 16384
  maxHeaderListSize : ℕ := 0
  reqDynamicTable : DynamicTable := {}
  respDynamicTable : DynamicTable := {}
  streams : OrdMap (id : ℕ → ℕ) HttpStream := .empty
  closedStreams : Finset ℕ := ∅
  preVector : List Http2Frame := []
  vector : List Http2Frame := []
  reads : List ReadOp := []
  writes : List WriteOp := []
  disposed : Bool := false
  retired : OrdMap (id : ℕ → ℕ) HttpStream := .empty
  trace : List Obs := []

namespace HttpConnectionEx

def observe (c : HttpConnectionEx) (o : Obs) : HttpConnectionEx := { c with trace := o :: c.trace }

def disponse (c : HttpConnectionEx) : HttpConnectionEx := { c with disposed := true }

/-- The octets `offset`, .., `offset + n - 1` of `temp_buffer`. -/
def slice (c : HttpConnectionEx) (offset n : ℕ) : Bytes :=
  let got := (c.tempBuffer.drop offset).take n
  got ++ List.replicate (n - got.length) 0

@[simp] theorem length_slice (c : HttpConnectionEx) (offset n : ℕ) :
    (c.slice offset n).length = n := by
  simp only [slice, List.length_append, List.length_replicate, List.length_take]
  omega

def payload (c : HttpConnectionEx) : Bytes := c.slice 0 c.frame.length

/-- Octets are stored at `temp_buffer + offset`. -/
def store (c : HttpConnectionEx) (offset : ℕ) (data : Bytes) : HttpConnectionEx :=
  { c with tempBuffer := c.slice 0 offset ++ data ++ c.tempBuffer.drop (offset + data.length) }

def readBlock (c : HttpConnectionEx) (kind : ReadKind) (offset length : ℕ) : HttpConnectionEx :=
  { c with
    isRead := true
    reads := c.reads ++ [⟨kind, offset, length⟩]
    trace := .readBlock length :: c.trace }

/-- `writeBlocks` of the frames in `vector`. -/
def writeBlocks (c : HttpConnectionEx) : HttpConnectionEx :=
  { c with isWrite := true, writes := c.writes ++ [.blocks] }

def writeBlock (c : HttpConnectionEx) (frame : Http2Frame) : HttpConnectionEx :=
  { c with isWrite := true, writes := c.writes ++ [.once], trace := .alone frame :: c.trace }

def readMagic (c : HttpConnectionEx) : HttpConnectionEx := c.readBlock .magic 0 24

def readFrameHeader (c : HttpConnectionEx) : HttpConnectionEx := c.readBlock .frameHeader 0 9

/-- The stream object under `id` has changed. -/
def setStream (c : HttpConnectionEx) (id : ℕ) (s : HttpStream) : HttpConnectionEx :=
  { c with streams := c.streams.insert id s }

/-- `streams.erase(id)` and `closed_streams.emplace(id)`; `s` is the object that
leaves the map. -/
def retire (c : HttpConnectionEx) (id : ℕ) (s : HttpStream) : HttpConnectionEx :=
  { c with
    streams := c.streams.erase id
    closedStreams := insert id c.closedStreams
    retired := c.retired.insert id s }

/-- `std::make_shared<HttpStream>` and its place in `streams`. -/
def openStream (c : HttpConnectionEx) (id : ℕ) : HttpConnectionEx :=
  { c with
    streams := c.streams.insert id { endpointWindowSize := c.endpointInitWindowSize }
    acceptStreamCount := (c.acceptStreamCount + 1) % 2 ^ 32
    trace := .opened id c.endpointInitWindowSize :: c.trace }

/-- The object behind a pointer that a handler has taken from `streams` earlier. -/
def held (c : HttpConnectionEx) (id : ℕ) : Option HttpStream :=
  (c.streams.find? id).or (c.retired.find? id)

def setHeld (c : HttpConnectionEx) (id : ℕ) (s : HttpStream) : HttpConnectionEx :=
  if c.streams.contains id then c.setStream id s
  else { c with retired := c.retired.insert id s }

/-- What one round does with one stream: the frame it queues, the stream
afterwards, and whether it is done. -/
structure Written where
  frame : Option Http2Frame
  stream : HttpStream
  done : Bool

/-- `std::min({endpoint_window_size, stream->endpoint_window_size, max_frame_size})`. -/
def remind (c : HttpConnectionEx) (s : HttpStream) : ℕ :=
  min (min c.endpointWindowSize s.endpointWindowSize) c.maxFrameSize

def writeHeadersFrame (c : HttpConnectionEx) (id : ℕ) (s : HttpStream) (verifyEndStream : Bool) :
    Written :=
  let content := s.tempBuffer.take c.maxFrameSize
  let s := { s with tempBuffer := s.tempBuffer.drop c.maxFrameSize }
  let result := verifyEndStream && s.response.body.isEmpty
  { frame := some {
      type := frameTypeHeaders
      flags := (if s.tempBuffer.isEmpty then frameFlagEndHeaders else 0) |||
        (if result then frameFlagEndStream else 0)
      ident := id
      length := content.length
      content := content }
    stream := s
    done := result }

def writeDataFrame4Body (c : HttpConnectionEx) (id : ℕ) (s : HttpStream) : Written :=
  if c.endpointWindowSize = 0 ∨ s.endpointWindowSize = 0 then ⟨none, s, false⟩
  else
    let content := s.response.body.take (c.remind s)
    let body := s.response.body.drop (c.remind s)
    { frame := some {
        type := frameTypeData
        flags := if body.isEmpty then frameFlagEndStream else 0
        ident := id
        length := content.length
        content := content }
      stream := { s with response := { s.response with body := body } }
      done := body.isEmpty }

/-- `stream->file->read(.., n)`. -/
def readFile (s : HttpStream) (n : ℕ) : Except Fault (Bytes × HttpStream) :=
  match s.file with
  | none => .error .nullPointer
  | some file =>
    let r := file.read n
    .ok (r.1, { s with file := some r.2 })

/-- The initial preparation of a download with one range. -/
def prepared (s : HttpStream) : Except Fault HttpStream :=
  if s.expectLength = 0 then s.prepareRange else .ok s

/-- The frame is sent with the type it is constructed with, which is DATA. -/
def writeDataFrame4SingleRange (c : HttpConnectionEx) (id : ℕ) (s : HttpStream) :
    Except Fault Written :=
  if c.endpointWindowSize = 0 ∨ s.endpointWindowSize = 0 then .ok ⟨none, s, false⟩
  else do
    let s ← prepared s
    let l := min (s.expectLength - s.realLength) (c.remind s)
    let (content, s) ← readFile { s with realLength := s.realLength + l } l
    let result := decide (s.realLength ≥ s.expectLength)
    return {
      frame := some {
        type := frameTypeData
        flags := if result then frameFlagEndStream else 0
        ident := id
        length := l
        content := content }
      stream := s
      done := result }

/-- `HTTPD_BOUNDARY`. -/
def httpdBoundary : Bytes := bytes "000000SESE0BOUNDARY000000"

def subheader (s : HttpStream) (range : Range) : Bytes :=
  (if s.rangeIterator = 0 then [] else bytes "\r\n") ++ bytes "--" ++ httpdBoundary ++ bytes "\r\n" ++
    bytes "content-type: " ++ s.contentType ++ bytes "\r\n" ++
    bytes "content-range: " ++ range.toString s.filesize ++ bytes "\r\n\r\n"

def endBoundary : Bytes := bytes "\r\n--" ++ httpdBoundary ++ bytes "--\r\n"

def writeSubheaderAndData (id : ℕ) (s : HttpStream) (subheader : Bytes) (remind : ℕ) :
    Except Fault Written := do
  let l := min (s.expectLength - s.realLength) remind
  let (content, s) ← readFile { s with realLength := s.realLength + l } l
  return {
    frame := some {
      type := frameTypeData
      ident := id
      length := subheader.length + l
      content := subheader ++ content }
    stream := s
    done := false }

/-- In the middle of a range `frame->length` is not assigned: the data is read from
the file and an empty frame is sent. -/
def writeDataFrame4Ranges (c : HttpConnectionEx) (id : ℕ) (s : HttpStream) :
    Except Fault Written :=
  if c.endpointWindowSize = 0 ∨ s.endpointWindowSize = 0 then .ok ⟨none, s, false⟩
  else if s.realLength ≥ s.expectLength then
    match s.ranges[s.rangeIterator]? with
    | some range =>
      let header := subheader s range
      if header.length > c.remind s then .ok ⟨none, s, false⟩
      else do writeSubheaderAndData id (← s.prepareRange) header (c.remind s - header.length)
    | none =>
      if endBoundary.length > c.remind s then .ok ⟨none, s, false⟩
      else .ok {
        frame := some {
          type := frameTypeData
          flags := frameFlagEndStream
          ident := id
          length := endBoundary.length
          content := endBoundary }
        stream := s
        done := true }
  else do
    let l := min (s.expectLength - s.realLength) (c.remind s)
    let (content, s) ← readFile { s with realLength := s.realLength + l } l
    return {
      frame := some { type := frameTypeData, ident := id, content := content }
      stream := s
      done := false }

/-- The body of the loop of `handleWrite`. A download without ranges matches no
branch that moves the iterator. -/
def writeStream (c : HttpConnectionEx) (id : ℕ) (s : HttpStream) : Except Fault Written :=
  if !s.doResponse then .ok ⟨none, s, false⟩
  else if s.connType = .fileDownload then
    if !s.tempBuffer.isEmpty then .ok (c.writeHeadersFrame id s false)
    else if s.ranges.length = 1 then c.writeDataFrame4SingleRange id s
    else if s.ranges.length > 1 then c.writeDataFrame4Ranges id s
    else .error .endlessLoop
  else if !s.tempBuffer.isEmpty then .ok (c.writeHeadersFrame id s true)
  else if !s.response.body.isEmpty then .ok (c.writeDataFrame4Body id s)
  else .ok ⟨none, s, true⟩

def push (c : HttpConnectionEx) (frame : Http2Frame) : HttpConnectionEx :=
  { c with preVector := c.preVector ++ [frame], trace := .put frame :: c.trace }

def pushSent (c : HttpConnectionEx) : Option Http2Frame → HttpConnectionEx
  | some frame => c.push frame
  | none => c

def applyWritten (c : HttpConnectionEx) (id : ℕ) (w : Written) : HttpConnectionEx :=
  if w.done then (c.pushSent w.frame).retire id w.stream
  else (c.pushSent w.frame).setStream id w.stream

/-- The loop of `handleWrite` over the streams in the order of their identifiers. -/
def writeLoop : List (ℕ × HttpStream) → HttpConnectionEx → Except Fault HttpConnectionEx
  | [], c => .ok c
  | (id, s) :: rest, c => do
    let w ← c.writeStream id s
    writeLoop rest (c.applyWritten id w)

def flush (c : HttpConnectionEx) : HttpConnectionEx :=
  if c.preVector.isEmpty then c
  else { c with vector := c.preVector, preVector := [] }.writeBlocks

def rangeLeft (s : HttpStream) : ℕ :=
  if s.expectLength = 0 then ((s.ranges[s.rangeIterator]?).map Range.len).getD 0
  else s.expectLength - s.realLength

/-- The octets that a download with several ranges sends next: the lines before a
range with its data, or those after the last one. -/
def rangesLeft (s : HttpStream) : ℕ :=
  if s.realLength ≥ s.expectLength then
    match s.ranges[s.rangeIterator]? with
    | some range => (subheader s range).length + range.len
    | none => endBoundary.length
  else 0

/-- The octets that a stream may still put into its next DATA frame. -/
def bytesLeft (s : HttpStream) : ℕ :=
  if s.connType = .fileDownload then
    if s.ranges.length = 1 then rangeLeft s else rangesLeft s
  else s.response.body.length

def dataTurns (c : HttpConnectionEx) (streams : List (ℕ × HttpStream)) : List DataTurn :=
  (streams.filter fun e => e.2.doResponse && e.2.tempBuffer.isEmpty).map fun e =>
    ⟨e.1, c.endpointWindowSize, e.2.endpointWindowSize, c.maxFrameSize, bytesLeft e.2⟩

def beginRound (c : HttpConnectionEx) : HttpConnectionEx :=
  c.observe (.round (c.dataTurns c.streams.entries))

def handleWrite (c : HttpConnectionEx) : Except Fault HttpConnectionEx :=
  let c := if c.isRead then c else c.readFrameHeader
  if c.isWrite then .ok c
  else do
    let c ← writeLoop c.streams.entries c.beginRound
    return c.flush

end HttpConnectionEx
end Sese.Service.Http
