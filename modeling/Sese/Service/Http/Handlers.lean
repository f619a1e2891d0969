import Sese.Service.Http.HttpConnectionEx

/-!
# The frame handlers

Every handler of `HttpConnectionEx` runs to its end and leaves the connection with
new operations outstanding, or with none when the source simply returns. Errors
are answered with a GOAWAY frame, which does not end the connection.

`step` is one event: the completion of an outstanding read or write.
-/
namespace Sese.Service.Http

open Foundation Sese.Net.Http

namespace HttpConnectionEx

/-- `writeGoawayFrame`. The buffer has room for `msg`, but only the two integers
are copied into it. With `once` the frame is written past the queue. -/
def writeGoawayFrame (c : HttpConnectionEx) (latestStreamId : ℕ) (code : ℕ)
    (msg : Bytes := []) (once : Bool := false) : Except Fault HttpConnectionEx :=
  let frame : Http2Frame := {
    type := frameTypeGoaway
    length := msg.length + 8
    content := toBigEndian32 latestStreamId ++ toBigEndian32 code }
  let c := c.observe (.goaway c.frame code)
  if once then .ok (c.writeBlock frame) else (c.push frame).handleWrite

/-- `writeRstStreamFrame`, which is never called with `once`. -/
def writeRstStreamFrame (c : HttpConnectionEx) (streamId code : ℕ) :
    Except Fault HttpConnectionEx :=
  (c.push {
    type := frameTypeRstStream
    ident := streamId
    length := 4
    content := toBigEndian32 code }).handleWrite

def localSettings : List (ℕ × ℕ) :=
  [(settingsInitialWindowSize, localInitWindowSize), (settingsMaxFrameSize, localMaxFrameSize),
    (settingsHeaderTableSize, localHeaderTableSize),
    (settingsMaxConcurrentStreams, localMaxConcurrentStreams)]

def writeSettingsFrame (c : HttpConnectionEx) : Except Fault HttpConnectionEx :=
  ({ c with expectAck := true }.push {
    type := frameTypeSettings
    length := localSettings.length * 6
    content := localSettings.flatMap fun (e : ℕ × ℕ) => toBigEndian16 e.1 ++ toBigEndian32 e.2 }
    ).handleWrite

def writeAckFrame (c : HttpConnectionEx) : Except Fault HttpConnectionEx :=
  (c.push { type := frameTypeSettings, flags := settingsFlagsAck }).handleWrite

def windowUpdateFrame (streamId increment : ℕ) : Http2Frame :=
  { type := frameTypeWindowUpdate, ident := streamId, length := 4
    content := toBigEndian32 increment }

def writeWindowUpdateFrame (c : HttpConnectionEx) (streamId windowSize : ℕ) :
    Except Fault HttpConnectionEx :=
  (c.push (windowUpdateFrame streamId windowSize)).handleWrite

def settingsOf : Bytes → List (ℕ × ℕ)
  | i₁ :: i₀ :: v₃ :: v₂ :: v₁ :: v₀ :: rest =>
    (fromBigEndian [i₁, i₀], fromBigEndian [v₃, v₂, v₁, v₀]) :: settingsOf rest
  | _ => []

/-- One setting; the code is 0 to go on with the next one. -/
def applySetting (c : HttpConnectionEx) (ident value : ℕ) :
    Except Fault (ℕ × HttpConnectionEx) := do
  if ident = settingsHeaderTableSize then
    let table ← c.reqDynamicTable.resize value
    return (0, { c with reqDynamicTable := table, headerTableSize := value })
  else if ident = settingsMaxConcurrentStreams then
    return (0, { c with maxConcurrentStream := if value = 0 then 100 else value })
  else if ident = settingsMaxFrameSize then
    if value > 16777215 ∨ value < 16384 then return (goawayProtocolError, c)
    else return (0, { c with
      endpointMaxFrameSize := value
      maxFrameSize := min value localMaxFrameSize })
  else if ident = settingsEnablePush then
    if value ≤ 1 then return (0, { c with enablePush := value })
    else return (goawayProtocolError, c)
  else if ident = settingsMaxHeaderListSize then
    let reqTable ← c.reqDynamicTable.resize value
    let respTable ← c.respDynamicTable.resize value
    return (0, { c with
      maxHeaderListSize := value
      reqDynamicTable := reqTable
      respDynamicTable := respTable })
  else if ident = settingsInitialWindowSize then
    if c.acceptStreamCount ≠ 0 then return (goawayFlowControlError, c)
    else if value > 2147483647 then return (goawayFlowControlError, c)
    else return (0, { c with endpointInitWindowSize := value })
  else return (0, c)

def applySettings (c : HttpConnectionEx) : List (ℕ × ℕ) → Except Fault (ℕ × HttpConnectionEx)
  | [] => .ok (0, c)
  | (ident, value) :: rest => do
    let (code, c) ← c.applySetting ident value
    if code ≠ 0 then return (code, c) else c.applySettings rest

/-- `UINT8_MAX`, what `handleSettingsFrame` returns for an acknowledgement. -/
def settingsAcked : ℕ := 255

def handleSettingsFrame (c : HttpConnectionEx) : Except Fault (ℕ × HttpConnectionEx) :=
  if c.frame.ident ≠ 0 then .ok (goawayProtocolError, c)
  else if c.frame.hasFlag settingsFlagsAck then
    if c.frame.length ≠ 0 then .ok (goawayFrameSizeError, c)
    else .ok (settingsAcked, { c with expectAck := false })
  else if c.frame.length % 6 ≠ 0 then .ok (goawayFrameSizeError, c)
  else c.applySettings (settingsOf c.payload)

/-- `static_cast<int32_t>` of an unsigned integer. -/
def toInt32 (n : ℕ) : ℤ := if n % 2 ^ 32 < 2 ^ 31 then n % 2 ^ 32 else (n % 2 ^ 32 : ℤ) - 2 ^ 32

/-- `isAdditionOverflow<int32_t>`. -/
def isAdditionOverflow (a b : ℤ) : Bool :=
  (0 < b && 2 ^ 31 - 1 - b < a) || (b < 0 && a < -2 ^ 31 - b)

def handleWindowUpdate (c : HttpConnectionEx) : Except Fault HttpConnectionEx :=
  let ident := c.frame.ident
  let i := fromBigEndian (c.slice 0 4)
  if c.frame.length ≠ 4 then c.writeGoawayFrame ident goawayFrameSizeError
  else if i = 0 then c.writeGoawayFrame ident goawayProtocolError
  else if ident = 0 then
    -- the check is made against the initial window of the streams
    if isAdditionOverflow (toInt32 c.endpointInitWindowSize) (toInt32 i) then
      c.writeGoawayFrame ident goawayFlowControlError
    else
      .ok ({ c with endpointWindowSize := (c.endpointWindowSize + i) % 2 ^ 32 }.observe
        (.credit ident i)).readFrameHeader
  else
    match c.streams.find? ident with
    | none => .ok c.readFrameHeader
    | some s =>
      let s := { s with continueType := c.frame.type }
      if isAdditionOverflow (toInt32 s.endpointWindowSize) (toInt32 i) then
        (c.setStream ident s).writeRstStreamFrame ident goawayFlowControlError
      else
        let s := { s with endpointWindowSize := (s.endpointWindowSize + i) % 2 ^ 32 }
        .ok ((c.setStream ident s).observe (.credit ident i)).readFrameHeader

/-- `handleGoawayFrame`; a frame of less than eight octets makes the length of the
message wrap around. -/
def handleGoawayFrame (c : HttpConnectionEx) : Except Fault HttpConnectionEx :=
  if c.frame.ident ≠ 0 then c.writeGoawayFrame 0 goawayProtocolError
  else
    let c := match c.streams.find? c.frame.ident with
      | some s => c.setStream c.frame.ident { s with continueType := c.frame.type }
      | none => c
    if c.frame.length < 8 then .error .overread
    else if c.slice 8 (c.frame.length - 8) = bytes "shutdown" then .ok c
    else .ok c.readFrameHeader

/-- `handleRstStreamFrame`. The `memcpy` of the error code has its arguments
exchanged: an uninitialised variable is copied into the buffer. -/
def handleRstStreamFrame (env : Env) (c : HttpConnectionEx) : Except Fault HttpConnectionEx :=
  let ident := c.frame.ident
  if ident = 0 then c.writeGoawayFrame 0 goawayProtocolError
  else if c.frame.length ≠ 4 then c.writeGoawayFrame 0 goawayFrameSizeError
  else if ident ∈ c.closedStreams then .ok c.readFrameHeader
  else
    match c.streams.find? ident with
    | none => c.writeGoawayFrame ident goawayProtocolError
    | some s =>
      .ok ((c.retire ident s).store 0 ((List.range 4).map env.indet)).readFrameHeader

/-- The dependency is read, and compared with the stream `s` itself. -/
def notePriority (c : HttpConnectionEx) (s : HttpStream) : Except Fault HttpConnectionEx :=
  let ident := c.frame.ident
  let c := c.setStream ident { s with continueType := c.frame.type }
  if fromBigEndian (c.slice 0 4) % 2 ^ 31 = ident then
    c.writeGoawayFrame ident goawayProtocolError
  else .ok c.readFrameHeader

def handlePriorityFrame (c : HttpConnectionEx) : Except Fault HttpConnectionEx :=
  let ident := c.frame.ident
  if ident = 0 ∨ ident % 2 ≠ 1 then c.writeGoawayFrame 0 goawayProtocolError
  else if c.frame.length ≠ 5 then c.writeGoawayFrame ident goawayFrameSizeError
  else
    match c.streams.find? ident with
    -- neither `closed_streams` nor the number of streams is looked at
    | none => (c.openStream ident).notePriority { endpointWindowSize := c.endpointInitWindowSize }
    | some s => c.notePriority s

def handlePingFrame (c : HttpConnectionEx) : Except Fault HttpConnectionEx :=
  if c.frame.ident ≠ 0 then c.writeGoawayFrame 0 goawayProtocolError [] true
  else if c.frame.length ≠ 8 then c.writeGoawayFrame 0 goawayFrameSizeError
  else if c.frame.hasFlag settingsFlagsAck then
    c.writeGoawayFrame 0 goawayProtocolError (bytes "unexpected ping with ack")
  else
    (c.push {
      type := frameTypePing
      flags := settingsFlagsAck
      length := 8
      content := c.slice 0 8 }).handleWrite

/-- `handleRequest` and the response that is encoded after it. -/
def respond (env : Env) (c : HttpConnectionEx) (id : ℕ) (s : HttpStream) :
    Except Fault (HttpConnectionEx × HttpStream) := do
  let s := { s with toHandleable := env.handleRequest s.toHandleable, doResponse := true }
  let s := { s with response := convert2Http2 s.response }
  let (block, table) ← HPackUtil.encode env.formatExpires c.respDynamicTable {} s.response.header
  return ({ c.observe (.request id) with respDynamicTable := table },
    { s with tempBuffer := s.tempBuffer ++ block })

/-- A header block is complete: it is decoded, and when no body follows the
request is handled. -/
def headersEnd (env : Env) (c : HttpConnectionEx) (s : HttpStream) :
    Except Fault HttpConnectionEx := do
  let ident := c.frame.ident
  let (code, d) ← HPackUtil.decode env.indet s.tempBuffer s.tempBuffer.length c.reqDynamicTable
    s.request.header false true c.headerTableSize
  let c := { c with reqDynamicTable := d.table }.observe (.decoded ident s.tempBuffer code)
  -- `freeCapacity` empties the buffer before the code is looked at
  let s := { s with tempBuffer := [], request := { s.request with header := d.header } }
  if code ≠ 0 then (c.setStream ident s).writeGoawayFrame ident code
  else
    let r := convertFromHttp2 s.request
    let c := c.observe (.converted ident r.2)
    let s := { s with request := r.1 }
    if !r.2 then (c.setStream ident s).writeGoawayFrame ident goawayProtocolError
    else
      let s := { s with toHandleable := env.handleFilter s.toHandleable }
      if s.endStream then
        let (c, s) ← c.respond env ident s
        (c.setStream ident s).handleWrite
      else .ok (c.setStream ident s).readFrameHeader

def fragmentOffset (f : Http2FrameInfo) : ℕ :=
  (if f.hasFlag frameFlagPadded then 1 else 0) + if f.hasFlag frameFlagPriority then 5 else 0

def paddedLength (c : HttpConnectionEx) : ℕ :=
  if c.frame.hasFlag frameFlagPadded then fromBigEndian (c.slice 0 1) else 0

def dependsOnItself (c : HttpConnectionEx) : Bool :=
  c.frame.hasFlag frameFlagPriority &&
    fromBigEndian (c.slice (fragmentOffset c.frame - 5) 4) = c.frame.ident

/-- The second half of `handleHeadersFrame`, for the stream `s`. -/
def headersFragment (env : Env) (c : HttpConnectionEx) (s : HttpStream) :
    Except Fault HttpConnectionEx :=
  let ident := c.frame.ident
  let s := { s with continueType := c.frame.type }
  if c.dependsOnItself then (c.setStream ident s).writeGoawayFrame ident goawayProtocolError
  else if c.paddedLength > c.frame.length then
    (c.setStream ident s).writeGoawayFrame ident goawayProtocolError
  -- the unsigned length wraps around and nearly 4 GiB are read from the buffer
  else if c.frame.length < c.paddedLength + fragmentOffset c.frame then .error .overread
  else
    let block := c.slice (fragmentOffset c.frame)
      (c.frame.length - c.paddedLength - fragmentOffset c.frame)
    let s := { s with
      tempBuffer := s.tempBuffer ++ block
      endHeaders := s.endHeaders || c.frame.hasFlag frameFlagEndHeaders
      endStream := s.endStream || c.frame.hasFlag frameFlagEndStream }
    let c := c.observe (.fragment c.frame block)
    if s.endHeaders then c.headersEnd env s
    else .ok (c.setStream ident s).readFrameHeader

def handleHeadersFrame (env : Env) (c : HttpConnectionEx) : Except Fault HttpConnectionEx :=
  let ident := c.frame.ident
  if ident = 0 ∨ ident % 2 ≠ 1 then c.writeGoawayFrame 0 goawayProtocolError
  else if ident ∈ c.closedStreams then c.writeGoawayFrame ident goawayStreamClosed
  else if c.frame.type = frameTypeHeaders then
    match c.streams.find? ident with
    | none =>
      if ident < c.latestStreamIdent then c.writeGoawayFrame 0 goawayProtocolError
      else if c.streams.size > localMaxConcurrentStreams then
        c.writeGoawayFrame 0 goawayProtocolError (bytes "shutdown") true
      else
        { c.openStream ident with latestStreamIdent := ident }.headersFragment env
          { endpointWindowSize := c.endpointInitWindowSize }
    | some s =>
      if s.endHeaders then c.writeGoawayFrame ident goawayProtocolError
      else c.headersFragment env s
  else
    match c.streams.find? ident with
    | none => c.writeGoawayFrame ident goawayProtocolError
    | some s => c.headersFragment env s

/-- Goes on with the stream that the handler has taken from `streams`. -/
def withHeld (c : HttpConnectionEx) (id : ℕ)
    (next : HttpStream → Except Fault HttpConnectionEx) : Except Fault HttpConnectionEx :=
  match c.held id with
  | some s => next s
  | none => .error .nullPointer

/-- The end of `handleDataFrame`. -/
def dataEnd (env : Env) (c : HttpConnectionEx) : Except Fault HttpConnectionEx :=
  let ident := c.frame.ident
  if c.frame.hasFlag frameFlagEndStream then
    c.withHeld ident fun s =>
      let header := s.request.header
      if s.connType ≠ .filter ∧ header.exist (bytes "content-length") ∧
          toUInt64 (toInteger (header.get (bytes "content-length") [])) ≠ s.request.body.length then
        c.writeGoawayFrame ident goawayProtocolError
      else if header.exist (bytes "te") ∨ header.exist (bytes "trailer") then
        c.writeGoawayFrame ident goawayProtocolError
      else do
        let (c, s) ← c.respond env ident s
        (c.setHeld ident s).handleWrite
  else .ok c.readFrameHeader

/-- The payload goes to the body of the request, unless a filter has refused the
request. -/
def dataBody (env : Env) (c : HttpConnectionEx) : Except Fault HttpConnectionEx :=
  let ident := c.frame.ident
  let append (c : HttpConnectionEx) (s : HttpStream) (data : Bytes) : HttpConnectionEx :=
    c.setHeld ident { s with request := { s.request with body := s.request.body ++ data } }
  c.withHeld ident fun s =>
    if c.frame.hasFlag frameFlagPadded then
      if c.paddedLength > c.frame.length then c.writeGoawayFrame ident goawayProtocolError
      else if s.connType = .filter then c.dataEnd env
      -- the unsigned length wraps around
      else if c.frame.length < c.paddedLength + 1 then .error .overread
      else (append c s (c.slice 1 (c.frame.length - c.paddedLength - 1))).dataEnd env
    else if s.connType = .filter then c.dataEnd env
    else (append c s c.payload).dataEnd env

/-- `writeWindowUpdateFrame` for the connection when half of the window is used. -/
def replenish (c : HttpConnectionEx) : Except Fault HttpConnectionEx :=
  if c.windowSize < localInitWindowSize / 2 then do
    let c ← c.writeWindowUpdateFrame 0 localInitWindowSize
    return { c with windowSize := c.windowSize + localInitWindowSize }
  else .ok c

/-- The same for the stream. -/
def replenishStream (c : HttpConnectionEx) : Except Fault HttpConnectionEx :=
  let ident := c.frame.ident
  c.withHeld ident fun s =>
    if s.windowSize < localInitWindowSize / 2 then do
      let c ← c.writeWindowUpdateFrame ident localInitWindowSize
      c.withHeld ident fun s =>
        .ok (c.setHeld ident { s with windowSize := s.windowSize + localInitWindowSize })
    else .ok c

/-- The frame `f` is taken off the windows of the connection and of its stream. -/
def acceptData (c : HttpConnectionEx) (f : Http2FrameInfo) (s : HttpStream) : HttpConnectionEx :=
  ({ c with windowSize := c.windowSize - f.length }.observe (.accepted f.ident f.length)).setHeld
    f.ident { s with continueType := f.type, windowSize := s.windowSize - f.length }

/-- `handleDataFrame` from the flow control check on. -/
def dataAccept (env : Env) (c : HttpConnectionEx) : Except Fault HttpConnectionEx :=
  let ident := c.frame.ident
  let length := c.frame.length
  c.withHeld ident fun s =>
    if length > c.windowSize ∨ length > s.windowSize then
      (c.setHeld ident { s with continueType := c.frame.type }).writeGoawayFrame ident
        goawayFlowControlError
    else do
      let c ← (c.acceptData c.frame s).replenish
      let c ← c.replenishStream
      c.dataBody env

def handleDataFrame (env : Env) (c : HttpConnectionEx) : Except Fault HttpConnectionEx :=
  let ident := c.frame.ident
  if c.expectAck then c.writeGoawayFrame 0 goawayProtocolError (bytes "expect ack")
  else if ident = 0 ∨ ident % 2 ≠ 1 then c.writeGoawayFrame 0 goawayProtocolError
  else if ident ∈ c.closedStreams then c.writeGoawayFrame ident goawayStreamClosed
  else
    match c.streams.find? ident with
    | none => c.writeGoawayFrame ident goawayProtocolError
    | some s =>
      -- the answer does not end the handler
      if s.endStream then do
        let c ← c.writeGoawayFrame ident goawayProtocolError
        c.dataAccept env
      else c.dataAccept env

/-- The frame breaks into the header block of its own stream. -/
def interrupts (c : HttpConnectionEx) : Bool :=
  c.frame.type ≠ frameTypeContinuation &&
    (c.streams.find? c.frame.ident).any fun s =>
      s.continueType = frameTypeContinuation && !s.endHeaders

/-- A CONTINUATION frame continues a header block of its stream. -/
def continues (c : HttpConnectionEx) : Bool :=
  (c.streams.find? c.frame.ident).any fun s =>
    (s.continueType = frameTypeHeaders || s.continueType = frameTypeContinuation) && !s.endHeaders

def handleFrameHeader (env : Env) (c : HttpConnectionEx) : Except Fault HttpConnectionEx :=
  let ident := c.frame.ident
  if c.interrupts then c.writeGoawayFrame ident goawayProtocolError
  else if c.frame.type = frameTypeSettings then do
    let (code, c) ← c.handleSettingsFrame
    if code = settingsAcked then return c.readFrameHeader
    else if code = 0 then c.writeAckFrame
    -- other codes are not answered, and nothing is read any more
    else return c
  else if c.frame.type = frameTypeWindowUpdate then c.handleWindowUpdate
  else if c.frame.type = frameTypeGoaway then c.handleGoawayFrame
  else if c.frame.type = frameTypeContinuation then
    if ident = 0 then c.writeGoawayFrame 0 goawayProtocolError
    else if !c.continues then c.writeGoawayFrame ident goawayProtocolError
    else c.handleHeadersFrame env
  else if c.frame.type = frameTypeHeaders then c.handleHeadersFrame env
  else if c.frame.type = frameTypeData then c.handleDataFrame env
  else if c.frame.type = frameTypePriority then c.handlePriorityFrame
  else if c.frame.type = frameTypeRstStream then c.handleRstStreamFrame env
  else if c.frame.type = frameTypePing then c.handlePingFrame
  else c.writeGoawayFrame 0 goawayProtocolError (bytes "unknown frame type")

/-- The completion of an outstanding operation, given by its position. -/
inductive Event
  | read (i : ℕ) (data : Bytes)
  | readFailed (i : ℕ)
  | written (i : ℕ)
  | writeFailed (i : ℕ)
  deriving DecidableEq, Repr

def endRead (c : HttpConnectionEx) (i : ℕ) : HttpConnectionEx :=
  { c with isRead := false, reads := c.reads.eraseIdx i }

def endWrite (c : HttpConnectionEx) (i : ℕ) : HttpConnectionEx :=
  { c with isWrite := false, writes := c.writes.eraseIdx i }

/-- The operation that the octets belong to, and the connection with the octets in
its buffer. `asio::transfer_at_least(1)` delivers at least one octet unless none
was asked for. -/
def arrive (c : HttpConnectionEx) (i : ℕ) (data : Bytes) :
    Except Fault (ReadOp × HttpConnectionEx) :=
  match c.reads[i]? with
  | none => .error .notOutstanding
  | some op =>
    if op.length < data.length ∨ data = [] ∧ op.length ≠ 0 then .error .notOutstanding
    else if localMaxFrameSize < op.offset + data.length then .error .overflow
    else .ok (op, (c.endRead i).store op.offset data)

/-- The callback of `readMagic`. -/
def onMagic (c : HttpConnectionEx) : Except Fault HttpConnectionEx :=
  if c.slice 0 24 ≠ magicString then .ok c.disponse else c.writeSettingsFrame

/-- The callback of `readFrameHeader`. -/
def onFrameHeader (c : HttpConnectionEx) : Except Fault HttpConnectionEx :=
  let c := { c with frame := Http2FrameInfo.parse (c.slice 0 9) }
  if c.frame.length > c.endpointMaxFrameSize then
    c.writeGoawayFrame c.frame.ident goawayProtocolError (bytes "shutdown") true
  else .ok (c.readBlock .payload 0 c.frame.length)

def step (c : HttpConnectionEx) (e : Env × Event) : Except Fault HttpConnectionEx :=
  match e.2 with
  | .read i data => do
    let (op, c) ← c.arrive i data
    if data.length ≠ op.length then
      return c.readBlock op.kind (op.offset + data.length) (op.length - data.length)
    else
      match op.kind with
      | .magic => c.onMagic
      | .frameHeader => c.onFrameHeader
      | .payload => (c.observe (.recv c.frame)).handleFrameHeader e.1
  | .readFailed i =>
    if i < c.reads.length then .ok (c.endRead i).disponse else .error .notOutstanding
  | .written i =>
    match c.writes[i]? with
    | none => .error .notOutstanding
    | some .blocks => (c.endWrite i).handleWrite
    | some .once => .ok (c.endWrite i).disponse
  | .writeFailed i =>
    if i < c.writes.length then .ok (c.endWrite i).disponse else .error .notOutstanding

def start : HttpConnectionEx := readMagic {}

/-- The state in which `handleFrameHeader` is entered, when the event completes a
frame. -/
def delivered (c : HttpConnectionEx) (e : Event) : Option HttpConnectionEx :=
  match e with
  | .read i data =>
    match c.arrive i data with
    | .ok (op, c) =>
      if data.length = op.length ∧ op.kind = .payload then some (c.observe (.recv c.frame)) else none
    | .error _ => none
  | _ => none

end HttpConnectionEx
end Sese.Service.Http
