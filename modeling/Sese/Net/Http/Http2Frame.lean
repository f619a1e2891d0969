import Sese.Util.Bytes

/-!
# HTTP/2 frames

The constants of `Http2Frame.h`, the nine octets of a frame header, and
`Http2Frame`, a frame with the buffer it is written from.
-/
namespace Sese.Net.Http

def frameFlagEndStream : UInt8 := 0x1
def frameFlagEndHeaders : UInt8 := 0x4
def frameFlagPadded : UInt8 := 0x8
def frameFlagPriority : UInt8 := 0x20

def frameTypeData : UInt8 := 0x0
def frameTypeHeaders : UInt8 := 0x1
def frameTypePriority : UInt8 := 0x2
def frameTypeRstStream : UInt8 := 0x3
def frameTypeSettings : UInt8 := 0x4
def frameTypePing : UInt8 := 0x6
def frameTypeGoaway : UInt8 := 0x7
def frameTypeWindowUpdate : UInt8 := 0x8
def frameTypeContinuation : UInt8 := 0x9

def goawayProtocolError : ℕ := 0x1
def goawayFlowControlError : ℕ := 0x3
def goawayStreamClosed : ℕ := 0x5
def goawayFrameSizeError : ℕ := 0x6
def goawayCompressionError : ℕ := 0x9

def settingsHeaderTableSize : ℕ := 0x1
def settingsEnablePush : ℕ := 0x2
def settingsMaxConcurrentStreams : ℕ := 0x3
def settingsInitialWindowSize : ℕ := 0x4
def settingsMaxFrameSize : ℕ := 0x5
def settingsMaxHeaderListSize : ℕ := 0x6

def settingsFlagsAck : UInt8 := 0x1

/-- `MAGIC_STRING`, 24 octets. -/
def magicString : Bytes := bytes "PRI * HTTP/2.0\r\n\r\nSM\r\n\r\n"

structure Http2FrameInfo where
  length : ℕ := 0
  type : UInt8 := 0
  flags : UInt8 := 0
  ident : ℕ := 0
  deriving DecidableEq, Repr

namespace Http2FrameInfo

/-- `flags & flag`. -/
def hasFlag (f : Http2FrameInfo) (flag : UInt8) : Bool := f.flags &&& flag ≠ 0

/-- The nine octets of a frame header; the reserved bit of the identifier is masked. -/
def parse (header : Bytes) : Http2FrameInfo where
  length := fromBigEndian (header.take 3)
  type := header.getD 3 0
  flags := header.getD 4 0
  ident := fromBigEndian ((header.drop 5).take 4) % 2 ^ 31

end Http2FrameInfo

/-- `Http2Frame`: `content` is the written part of the content buffer, which is
zero beyond it; `length` octets of the buffer are sent. -/
structure Http2Frame extends Http2FrameInfo where
  content : Bytes := []
  deriving DecidableEq, Repr

def Http2Frame.payload (f : Http2Frame) : Bytes :=
  f.content.take f.length ++ List.replicate (f.length - f.content.length) 0

end Sese.Net.Http
